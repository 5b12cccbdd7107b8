import RsTenant.RoleData
import RsTenant.Staleness

/-! # What a query saw

A query reads its data piece by piece while others change it, and it may be
answered from an entry that some earlier query filled in the same way. So its
answer need not be right for any state the source was ever in. It is still
pinned down by the states in which the grants were read: what every one of
these states grants is allowed, and what is allowed follows from data each
piece of which was there in one of them (`query_bracket`).

* `Bracketed`: a scope between what two sets of data give;
* `ReadBy`: who read the grants that a query decides by, and by when.
-/

namespace RsTenant

open Interact

/-! ## The data of a subject -/

/-- The source answers with the datum when it is asked about the subject. -/
def AuthorizationSource.Has (src : AuthorizationSource) (subject : AuthSubject) :
    Datum RoleId GrantScope → Prop
  | .assigned a => ∃ as, src.roleAssignments subject = .ok as ∧ a ∈ as
  | .parent r p => ∃ ps, src.parentRoles subject.tenant r = .ok ps ∧ p ∈ ps
  | .permission r p => ∃ ps, src.rolePermissions subject.tenant r = .ok ps ∧ p ∈ ps

def AuthorizationSource.data (src : AuthorizationSource) (subject : AuthSubject) :
    Set (Datum RoleId GrantScope) := {d | src.Has subject d}

theorem mem_data_assigned {src : AuthorizationSource} {subject : AuthSubject}
    {as : List RoleAssignment} (h : src.roleAssignments subject = .ok as) (a : RoleAssignment) :
    a ∈ as ↔ .assigned a ∈ src.data subject :=
  Results.mem_iff_of_ok h a

theorem mem_data_parent {src : AuthorizationSource} {subject : AuthSubject} {r : RoleId}
    {ps : List RoleId} (h : src.parentRoles subject.tenant r = .ok ps) (p : RoleId) :
    p ∈ ps ↔ .parent r p ∈ src.data subject :=
  Results.mem_iff_of_ok h p

theorem mem_data_permission {src : AuthorizationSource} {subject : AuthSubject} {r : RoleId}
    {ps : List Permission} (h : src.rolePermissions subject.tenant r = .ok ps) (p : Permission) :
    p ∈ ps ↔ .permission r p ∈ src.data subject :=
  Results.mem_iff_of_ok h p

/-- `s` lies between the union of what is matched in `lo` and the union of what
is matched in `hi`. -/
structure Bracketed (config : EngineConfig) (query : ScopeQuery)
    (lo hi : Set (Datum RoleId GrantScope)) (s : AccessScope) : Prop where
  allows : ∀ a target,
    Datum.Matched config.enableRoleHierarchy lo config.enableWildcard query.permission a →
    a.scope.Covers target → s.allowsPath target = true
  allowed : ∀ target, s.allowsPath target = true → ∃ a,
    Datum.Matched config.enableRoleHierarchy hi config.enableWildcard query.permission a ∧
      a.scope.Covers target
  wholeTenant : ∀ a,
    Datum.Matched config.enableRoleHierarchy lo config.enableWildcard query.permission a →
    a.scope = .tenant → s = .tenant query.subject.tenant
  ofTenant : ∀ t, s = .tenant t → ∃ a,
    Datum.Matched config.enableRoleHierarchy hi config.enableWildcard query.permission a ∧
      a.scope = .tenant
  none : s = .none → ∀ a,
    ¬ Datum.Matched config.enableRoleHierarchy lo config.enableWildcard query.permission a

/-- Wider sets bracket what narrower ones do. -/
theorem Bracketed.mono {config : EngineConfig} {query : ScopeQuery}
    {lo lo' hi hi' : Set (Datum RoleId GrantScope)} {s : AccessScope}
    (h : Bracketed config query lo hi s) (hlo : lo' ⊆ lo) (hhi : hi ⊆ hi') :
    Bracketed config query lo' hi' s where
  allows a target ha hcov := h.allows a target (ha.mono hlo) hcov
  allowed target htarget := by
    obtain ⟨a, ha, hcov⟩ := h.allowed target htarget
    exact ⟨a, ha.mono hhi, hcov⟩
  wholeTenant a ha hscope := h.wholeTenant a (ha.mono hlo) hscope
  ofTenant t ht := by
    obtain ⟨a, ha, hscope⟩ := h.ofTenant t ht
    exact ⟨a, ha.mono hhi, hscope⟩
  none hs a ha := h.none hs a (ha.mono hlo)

section Engine

variable {engine : Engine} {subject : AuthSubject} {srcs : List AuthorizationSource}
  {lo hi : Set (Datum RoleId GrantScope)}

/-- A decision on grants that lie in between lies in between. -/
theorem bracketed_decide (query : ScopeQuery) {grants : List EffectiveGrant}
    (h : Between engine.config.enableRoleHierarchy lo hi grants) :
    Bracketed engine.config query lo hi (engine.decide query grants).1 := by
  obtain ⟨hcomplete, hsound⟩ := h.scopes query.permission engine.config.enableWildcard
  -- merging keeps exactly what the scopes of the matching grants cover
  unfold Engine.decide
  constructor
  · intro a target ha hcov
    rw [AccessScope.allowsPath_merge]
    exact ⟨a.scope, hcomplete a ha, hcov⟩
  · intro target htarget
    rw [AccessScope.allowsPath_merge] at htarget
    obtain ⟨scope, hscope, hcov⟩ := htarget
    obtain ⟨a, ha, rfl⟩ := hsound scope hscope
    exact ⟨a, ha, hcov⟩
  · intro a ha hscope
    rw [AccessScope.merge_eq_tenant, ← hscope]
    exact hcomplete a ha
  · intro t ht
    have htenant : t = query.subject.tenant := AccessScope.eq_of_merge_eq_tenant ht
    subst htenant
    rw [AccessScope.merge_eq_tenant] at ht
    exact hsound _ ht
  · intro hnone a ha
    rw [AccessScope.merge_eq_none] at hnone
    have hmem := hcomplete a ha
    rw [hnone] at hmem
    exact List.not_mem_nil hmem

/-! ## One query against answers from many sources -/

/-- Every read is answered by one of the sources, and a lookup finds nothing but
what `Found` holds of. -/
def AnsweredBy (srcs : List AuthorizationSource) (Found : List EffectiveGrant → Prop) :
    (op : EngineSig.Op) → EngineSig.Resp op → Prop
  | .read r, a => ∃ src ∈ srcs, a = src.answer r
  | .getEffectiveGrants _ _ _, cached => ∀ grants, cached = some grants → Found grants
  | _, _ => True

/-- What is written into the cache satisfies `P`. -/
def Stores (P : List EffectiveGrant → Prop) : EngineSig.Op → Prop
  | .setEffectiveGrants _ _ _ grants => P grants
  | _ => True

/-- The grants lie between what all of the sources have and what any of them
has. -/
abbrev ReadFromAll (engine : Engine) (subject : AuthSubject) (srcs : List AuthorizationSource)
    (grants : List EffectiveGrant) : Prop :=
  Between engine.config.enableRoleHierarchy (always srcs fun src => src.data subject)
    (ever srcs fun src => src.data subject) grants

/-- What a resolved scope and its reason come from: a status that was read, or
grants that satisfy `P`. -/
inductive Resolved (engine : Engine) (query : ScopeQuery) (srcs : List AuthorizationSource)
    (P : List EffectiveGrant → Prop) : AccessScope × Option DenyReason → Prop
  | tenantInactive {src : AuthorizationSource} (hsrc : src ∈ srcs)
      (htenant : src.tenantStatus query.subject.tenant = .ok .inactive) :
      Resolved engine query srcs P (.none, some .tenantInactive)
  | principalInactive {src src' : AuthorizationSource} (hsrc : src ∈ srcs)
      (htenant : src.tenantStatus query.subject.tenant = .ok .active) (hsrc' : src' ∈ srcs)
      (hmember : src'.membershipStatus query.subject = .ok .inactive) :
      Resolved engine query srcs P (.none, some .principalInactive)
  | decided {src src' : AuthorizationSource} (hsrc : src ∈ srcs)
      (htenant : src.tenantStatus query.subject.tenant = .ok .active) (hsrc' : src' ∈ srcs)
      (hmember : src'.membershipStatus query.subject = .ok .active)
      {grants : List EffectiveGrant} (hgrants : P grants) :
      Resolved engine query srcs P (engine.decide query grants)

variable {Found : List EffectiveGrant → Prop} {G : EngineSig.Op → Prop}

theorem Resolved.mono {query : ScopeQuery} {P P' : List EffectiveGrant → Prop}
    (hP : ∀ grants, P grants → P' grants) {res : AccessScope × Option DenyReason}
    (h : Resolved engine query srcs P res) : Resolved engine query srcs P' res := by
  cases h with
  | tenantInactive hsrc htenant => exact .tenantInactive hsrc htenant
  | principalInactive hsrc htenant hsrc' hmember =>
    exact .principalInactive hsrc htenant hsrc' hmember
  | decided hsrc htenant hsrc' hmember hgrants =>
    exact .decided hsrc htenant hsrc' hmember (hP _ hgrants)

theorem triple_read {r : SourceRead} {P : r.Answer → Prop} (hG : G (.read r))
    (hP : ∀ src ∈ srcs, ∀ a, src.answer r = .ok a → P a) :
    (readSource r).run.Triple (AnsweredBy srcs Found) G (Fallible.OnOk P) := by
  refine ⟨hG, ?_⟩
  rintro a ⟨src, hsrc, rfl⟩
  show Fallible.OnOk P ((src.answer r).mapError Error.source)
  cases ha : src.answer r with
  | ok v => exact hP src hsrc v ha
  | error e => trivial

/-- The roles are read between what all of the sources have and what any of
them has. -/
theorem readsBetween (hG : ∀ r, G (.read r)) :
    ReadsBetween (engine.roleReads subject.tenant) (AnsweredBy srcs Found) G
      (always srcs fun src => src.data subject) (ever srcs fun src => src.data subject) where
  parentRoles _ := triple_read (hG _) fun _ hsrc _ hparents =>
    between_of_read hsrc (mem_data_parent hparents)
  rolePermissions _ := triple_read (hG _) fun _ hsrc _ hpermissions =>
    between_of_read hsrc (mem_data_permission hpermissions)

theorem triple_computeGrants_between (hG : ∀ r, G (.read r)) :
    (engine.computeGrants subject).run.Triple (AnsweredBy srcs Found) G
      (Fallible.OnOk (ReadFromAll engine subject srcs)) := by
  have hassignments : (readSource (.roleAssignments subject)).run.Triple (AnsweredBy srcs Found) G
      (Fallible.OnOk fun as => ∀ a,
        (.assigned a ∈ always srcs (fun src => src.data subject) → a ∈ as) ∧
        (a ∈ as → .assigned a ∈ ever srcs fun src => src.data subject)) :=
    triple_read (hG _) fun src hsrc as has => between_of_read hsrc (mem_data_assigned has)
  apply Fallible.triple_ok_bind hassignments
  intro as has
  exact triple_between (readsBetween hG) has

theorem triple_effectiveGrants_between :
    (engine.effectiveGrants subject).run.Triple (AnsweredBy srcs Found)
      (Stores (ReadFromAll engine subject srcs))
      (Fallible.OnOk fun grants => Found grants ∨ ReadFromAll engine subject srcs grants) := by
  have hlookup : (getEffectiveGrants subject.tenant subject.principal
      engine.configSignature).run.Triple (AnsweredBy srcs Found)
      (Stores (ReadFromAll engine subject srcs))
      (Fallible.OnOk fun cached => ∀ grants, cached = some grants → Found grants) :=
    ⟨trivial, fun cached hcached => hcached⟩
  -- what was found is passed on, anything else is read and stored
  apply Fallible.triple_ok_bind hlookup
  intro cached hcached
  cases cached with
  | some grants => exact .inl (hcached grants rfl)
  | none =>
    apply Fallible.triple_ok_bind (triple_computeGrants_between fun _ => trivial)
    intro grants hgrants
    exact ⟨hgrants, fun _ _ => .inr hgrants⟩

theorem triple_resolveScope_between (query : ScopeQuery) :
    (engine.resolveScope query).run.Triple (AnsweredBy srcs Found)
      (Stores (ReadFromAll engine query.subject srcs))
      (Fallible.OnOk (Resolved engine query srcs fun grants =>
        Found grants ∨ ReadFromAll engine query.subject srcs grants)) := by
  have htenant : (readSource (.tenantStatus query.subject.tenant)).run.Triple
      (AnsweredBy srcs Found) (Stores (ReadFromAll engine query.subject srcs))
      (Fallible.OnOk fun status => ∃ src ∈ srcs,
        src.tenantStatus query.subject.tenant = .ok status) := by
    apply triple_read trivial
    intro src hsrc status hstatus
    exact ⟨src, hsrc, hstatus⟩
  have hmember : (readSource (.membershipStatus query.subject)).run.Triple
      (AnsweredBy srcs Found) (Stores (ReadFromAll engine query.subject srcs))
      (Fallible.OnOk fun status => ∃ src ∈ srcs,
        src.membershipStatus query.subject = .ok status) := by
    apply triple_read trivial
    intro src hsrc status hstatus
    exact ⟨src, hsrc, hstatus⟩
  apply Fallible.triple_ok_bind htenant
  -- the statuses may have been read in two different states
  rintro status ⟨src, hsrc, hstatus⟩
  cases status with
  | inactive => exact .tenantInactive hsrc hstatus
  | active =>
    apply Fallible.triple_ok_bind hmember
    rintro status ⟨src', hsrc', hstatus'⟩
    cases status with
    | inactive => exact .principalInactive hsrc hstatus hsrc' hstatus'
    | active =>
      apply Fallible.triple_ok_bind triple_effectiveGrants_between
      intro grants hgrants
      exact .decided hsrc hstatus hsrc' hstatus' hgrants

/-- What a query returns and caches, in terms of the sources that answered
it. -/
theorem triple_serve_between (request : Request) :
    (engine.serve request).run.Triple (AnsweredBy srcs Found)
      (fun op => EngineOp.Concerns request.subject engine.configSignature op ∧
        Stores (ReadFromAll engine request.subject srcs) op)
      (Fallible.OnOk fun reply => ∃ res, reply = request.reply res ∧
        Resolved engine request.query srcs
          (fun grants => Found grants ∨ ReadFromAll engine request.subject srcs grants) res) := by
  have hserve : (engine.serve request).run.Triple (AnsweredBy srcs Found)
      (Stores (ReadFromAll engine request.subject srcs))
      (Fallible.OnOk fun reply => ∃ res, reply = request.reply res ∧
        Resolved engine request.query srcs
          (fun grants => Found grants ∨ ReadFromAll engine request.subject srcs grants) res) := by
    rw [engine.serve_eq, map_eq_pure_bind]
    apply Fallible.triple_ok_bind (triple_resolveScope_between request.query)
    intro res hres
    exact ⟨res, rfl, hres⟩
  exact ((only_serve request).triple.and hserve).weaken fun _ h => h.2

end Engine

/-! ## Queries on a shared cache -/

section World

variable [DefaultHasher] {cache : MemoryCache}

/-- Every read is answered by one of the sources, and a lookup of the subject's
entry is decided by nothing but what `Found` holds of. -/
def StepAnsweredBy (cache : MemoryCache) (ttl : Option Duration) (engine : Engine)
    (subject : AuthSubject) (srcs : List AuthorizationSource)
    (Found : List EffectiveGrant → Prop) (op : WorldSig.Op) (r : WorldSig.Resp op) : Prop :=
  (∀ read a, (⟨op, r⟩ : Event WorldSig) = ⟨.read read, a⟩ → ∃ src ∈ srcs, a = src.answer read) ∧
  ∀ now grants,
    DecidedBy cache ttl ⟨subject.tenant, subject.principal, engine.configSignature⟩ now grants
      ⟨op, r⟩ → Found grants

variable {engine : Engine} {subject : AuthSubject} {srcs : List AuthorizationSource}
  {Found P : List EffectiveGrant → Prop} {ttl : Option Duration}

theorem answeredBy_lower {op : EngineSig.Op}
    (hop : op.Concerns subject engine.configSignature ∧ Stores P op) :
    ((cache.cloneWith ttl).lower op).Triple
      (StepAnsweredBy cache ttl engine subject srcs Found)
      (fun step : WorldOp => ∀ key e, step.Writes cache key e → P e.grants)
      (AnsweredBy srcs Found op) := by
  have hwrites : ((cache.cloneWith ttl).lower op).Only fun step : WorldOp =>
      ∀ key e, step.Writes cache key e → P e.grants := by
    refine (writes_lower ttl op).mono fun step hstep key e hwrite => ?_
    have hset := hstep key e hwrite
    subst hset
    exact hop.2
  have hanswers : ((cache.cloneWith ttl).lower op).Triple
      (StepAnsweredBy cache ttl engine subject srcs Found) (fun _ => True)
      (AnsweredBy srcs Found op) := by
    cases op with
    | read r => exact ⟨trivial, fun a ha => ha.1 r a rfl⟩
    | getEffectiveGrants t p sig =>
      obtain ⟨⟨rfl, rfl, rfl⟩, -⟩ := hop
      show ((cache.cloneWith ttl).getEffectiveGrants _).Triple _ _ _
      unfold MemoryCache.getEffectiveGrants
      split
      · exact nofun
      · refine ⟨trivial, fun now _ => ⟨trivial, fun phase hphase => ?_⟩⟩
        -- a lookup is decided under the read lock or under the write lock
        cases phase with
        | hit grants =>
          rintro found ⟨⟩
          exact hphase.2 now grants (.inl rfl)
        | miss => exact nofun
        | locked =>
          refine ⟨trivial, fun cached hcached => ?_⟩
          rintro grants rfl
          exact hcached.2 now grants (.inr rfl)
    | setEffectiveGrants t p sig grants =>
      have hsteps : ((cache.cloneWith ttl).setEffectiveGrants ⟨t, p, sig⟩ grants).Only
          fun _ => True :=
        (cache.cloneWith ttl).setEffectiveGrants_only _ _ trivial fun _ _ => trivial
      exact hsteps.triple.weaken fun _ _ => trivial
    | _ => exact absurd hop.1 id
  exact (hwrites.triple.and hanswers).mono (fun _ _ h => h) (fun _ h => h.1) fun _ h => h.2

/-- What a query returns and writes on a shared cache. -/
theorem triple_query_between (request : Request) :
    (Party.prog cache (.query ttl engine request)).Triple
      (StepAnsweredBy cache ttl engine request.subject srcs Found)
      (fun step : WorldOp => ∀ key e, step.Writes cache key e →
        ReadFromAll engine request.subject srcs e.grants)
      (fun out => ∀ reply, out = .result (.ok reply) → ∃ res, reply = request.reply res ∧
        Resolved engine request.query srcs
          (fun grants => Found grants ∨ ReadFromAll engine request.subject srcs grants) res) := by
  refine Prog.Triple.bind (Prog.Triple.subst (fun op hop => answeredBy_lower hop)
    (triple_serve_between request)) ?_
  rintro res hres reply ⟨⟩
  exact hres

end World

/-! ## Whose reads a query decides by -/

/-- The states of the source in which thread `i` took its steps. -/
def sourcesAt (i : ℕ) (l : List (Occ WorldSig World)) : List AuthorizationSource :=
  (statesAt i l).map World.source

theorem mem_sourcesAt {i : ℕ} {l : List (Occ WorldSig World)} {src : AuthorizationSource} :
    src ∈ sourcesAt i l ↔ ∃ o ∈ l, o.thread = i ∧ o.pre.source = src := by
  unfold sourcesAt
  rw [List.mem_map]
  constructor
  · rintro ⟨w, hw, rfl⟩
    obtain ⟨o, ho, hthread, rfl⟩ := mem_statesAt.mp hw
    exact ⟨o, ho, hthread, rfl⟩
  · rintro ⟨o, ho, hthread, rfl⟩
    exact ⟨o.pre, mem_statesAt.mpr ⟨o, ho, hthread, rfl⟩, rfl⟩

/-- `ReadBy … k l`: the grants that query `i` decides by were read by thread `k`
in the part `l` of the history. Either that is the query itself, or a query of
the same subject by the same configuration, which wrote the entry that `i`
found: nothing dropped it in between, and it was no older than `i` allows. -/
inductive ReadBy [DefaultHasher] (cache : MemoryCache) (parties : ℕ → Party)
    (hist : List (Occ WorldSig World)) (i : ℕ) (ttl : Option Duration) (engine : Engine)
    (subject : AuthSubject) : ℕ → List (Occ WorldSig World) → Prop
  | own : ReadBy cache parties hist i ttl engine subject i hist
  | cached {l m n : List (Occ WorldSig World)} {s d : Occ WorldSig World}
      {ttl' : Option Duration} {request' : Request} {grants : List EffectiveGrant}
      {at' now : Instant}
      (hist_eq : hist = l ++ s :: (m ++ d :: n))
      (party : parties s.thread = .query ttl' engine request')
      (subject_eq : request'.subject = subject)
      (writes : s.event.op.Writes cache
        ⟨subject.tenant, subject.principal, engine.configSignature⟩ ⟨grants, at'⟩)
      (keeps : ∀ o ∈ m, o.event.op.Keeps cache
        ⟨subject.tenant, subject.principal, engine.configSignature⟩)
      (thread : d.thread = i)
      (decided : DecidedBy cache ttl
        ⟨subject.tenant, subject.principal, engine.configSignature⟩ now grants d.event)
      (age : ∀ d, ttl = some d → now - at' ≤ d) :
      ReadBy cache parties hist i ttl engine subject s.thread l

theorem ReadBy.mem [DefaultHasher] {cache : MemoryCache} {parties : ℕ → Party}
    {hist : List (Occ WorldSig World)} {i : ℕ} {ttl : Option Duration} {engine : Engine}
    {subject : AuthSubject} {k : ℕ} {l : List (Occ WorldSig World)}
    (h : ReadBy cache parties hist i ttl engine subject k l) : ∀ o ∈ l, o ∈ hist := by
  cases h with
  | own => exact fun o ho => ho
  | cached hist_eq => exact fun o ho => hist_eq ▸ List.mem_append_left _ ho

/-- A resolved scope with its reason: the statuses that were read satisfy `T`
and `M`, the scope satisfies `B`. -/
inductive Explained (T : TenantStatus → Prop) (M : MembershipStatus → Prop)
    (B : AccessScope → Prop) : AccessScope × Option DenyReason → Prop
  | tenantInactive (htenant : T .inactive) : Explained T M B (.none, some .tenantInactive)
  | principalInactive (htenant : T .active) (hmember : M .inactive) :
      Explained T M B (.none, some .principalInactive)
  | decided (htenant : T .active) (hmember : M .active) {scope : AccessScope}
      (hscope : B scope) :
      Explained T M B (scope, if scope = .none then some .permissionMissing else none)

theorem Resolved.explained {engine : Engine} {query : ScopeQuery}
    {srcs : List AuthorizationSource} {P : List EffectiveGrant → Prop} {B : AccessScope → Prop}
    {res : AccessScope × Option DenyReason} (h : Resolved engine query srcs P res)
    (hB : ∀ grants, P grants → B (engine.decide query grants).1) :
    Explained (fun status => ∃ src ∈ srcs, src.tenantStatus query.subject.tenant = .ok status)
      (fun status => ∃ src ∈ srcs, src.membershipStatus query.subject = .ok status) B res := by
  cases h with
  | tenantInactive hsrc htenant => exact .tenantInactive ⟨_, hsrc, htenant⟩
  | principalInactive hsrc htenant hsrc' hmember =>
    exact .principalInactive ⟨_, hsrc, htenant⟩ ⟨_, hsrc', hmember⟩
  | @decided src src' hsrc htenant hsrc' hmember grants hgrants =>
    have hpair : engine.decide query grants =
        ((engine.decide query grants).1,
          if (engine.decide query grants).1 = .none then some .permissionMissing else none) :=
      Prod.ext rfl (decide_reason engine query grants)
    rw [hpair]
    exact .decided ⟨_, hsrc, htenant⟩ ⟨_, hsrc', hmember⟩ (hB grants hgrants)

section Runs

variable [DefaultHasher] {cache : MemoryCache} {w : World} {parties : ℕ → Party}
  {sched : List ℕ}

omit [DefaultHasher] in
/-- A thread's reads are answered by the sources at its steps. -/
theorem read_of_trail {i : ℕ} {l l' : List (Occ WorldSig World)} {w' : World}
    (hrecords : Records World.handle w (l ++ l') w') {ev : Event WorldSig} (hev : ev ∈ trail i l) :
    ∀ read a, ev = ⟨.read read, a⟩ → ∃ src ∈ sourcesAt i l, a = src.answer read := by
  rintro read a rfl
  obtain ⟨o, ho, hthread, hevent⟩ := mem_trail.mp hev
  refine ⟨o.pre.source, mem_sourcesAt.mpr ⟨o, ho, hthread, rfl⟩, ?_⟩
  have hresp := hrecords.resp o (List.mem_append_left _ ho)
  rw [hevent] at hresp
  exact hresp

/-- A query that writes an entry has read the grants in it. -/
theorem readFromAll_of_writes {l l' : List (Occ WorldSig World)} {s : Occ WorldSig World}
    {w' : World} (hrecords : Records World.handle w (l ++ s :: l') w') {p : Prog WorldSig Returned}
    {ttl : Option Duration} {engine : Engine} {request : Request}
    (hpath : Prog.Path (Party.prog cache (.query ttl engine request))
      (trail s.thread (l ++ [s])) p)
    {key : CacheKey} {e : CacheEntry} (hwrites : s.event.op.Writes cache key e) :
    ReadFromAll engine request.subject (sourcesAt s.thread l) e.grants := by
  have hmem : s.event ∈ trail s.thread (l ++ [s]) :=
    mem_trail.mpr ⟨s, List.mem_append_right _ (List.mem_singleton.mpr rfl), rfl, rfl⟩
  have htriple : (Party.prog cache (.query ttl engine request)).Triple
      (StepAnsweredBy cache ttl engine request.subject (sourcesAt s.thread l) fun _ => True)
      _ _ := triple_query_between request
  refine (htriple.path hpath ?_).2 _ hmem key e hwrites
  intro ev hev
  refine ⟨fun read a hread => ?_, fun _ _ _ => trivial⟩
  rw [trail_append, List.mem_append] at hev
  rcases hev with hev | hev
  · exact read_of_trail hrecords hev read a hread
  · -- the write itself is no read
    obtain ⟨o, ho, -, hevent⟩ := mem_trail.mp hev
    rw [List.mem_singleton] at ho
    subst ho
    obtain ⟨ttl', shardCapacity, hop⟩ := hwrites
    have hread' : o.event.op = .read read := congrArg Event.op (hevent.trans hread)
    rw [hop] at hread'
    cases hread'

/-- An entry is written by a query of its subject, by an engine of its
configuration. -/
theorem query_of_writes (hsets : ∀ k ttl key grants, parties k ≠ .set ttl key grants)
    {s : Occ WorldSig World} (hs : s ∈ (after cache w parties sched).hist) {engine : Engine}
    {subject : AuthSubject} {e : CacheEntry}
    (hwrites : s.event.op.Writes cache
      ⟨subject.tenant, subject.principal, engine.configSignature⟩ e) :
    ∃ ttl request, parties s.thread = .query ttl engine request ∧ request.subject = subject := by
  obtain ⟨ttl, engine', request, hparty, hsubject, hsig⟩ := query_of_write hsets hs hwrites
  have hengine : engine = engine' := Engine.eq_of_signature hsig
  subst hengine
  exact ⟨ttl, request, hparty, hsubject.symm⟩

/-- What query `i` finds was read by the query that wrote it. -/
theorem readBy_of_decided (hw : w.Fresh)
    (hsets : ∀ k ttl key grants, parties k ≠ .set ttl key grants) {i : ℕ}
    {ttl : Option Duration} {engine : Engine} {subject : AuthSubject}
    {l₁ n : List (Occ WorldSig World)} {d : Occ WorldSig World}
    (hhist : (after cache w parties sched).hist = l₁ ++ d :: n) (hthread : d.thread = i)
    {now : Instant} {grants : List EffectiveGrant}
    (hdecided : DecidedBy cache ttl
      ⟨subject.tenant, subject.principal, engine.configSignature⟩ now grants d.event) :
    ∃ k l, ReadBy cache parties (after cache w parties sched).hist i ttl engine subject k l ∧
      ReadFromAll engine subject (sourcesAt k l) grants := by
  rcases after_history cache w parties sched with ⟨hrecords, hpaths, -, hplaced⟩
  rw [hhist] at hrecords hplaced
  obtain ⟨at', ⟨l, s, m, hsplit, hwrites, hkeeps⟩, hage⟩ :=
    written_of_decided hw hrecords hplaced hdecided
  have hfull : (after cache w parties sched).hist = l ++ s :: (m ++ d :: n) := by
    rw [hhist, hsplit, List.append_assoc, List.cons_append]
  have hs : s ∈ (after cache w parties sched).hist := by
    rw [hfull]
    exact List.mem_append_right _ List.mem_cons_self
  obtain ⟨ttl', request', hparty, hsubject⟩ := query_of_writes hsets hs hwrites
  -- the path of the thread that has written the entry, up to the write
  have hpath := hpaths s.thread
  rw [hfull, ← List.singleton_append, ← List.append_assoc, trail_append, hparty] at hpath
  obtain ⟨p, hpath, -⟩ := hpath.split
  rw [← hhist, hfull] at hrecords
  refine ⟨s.thread, l, .cached hfull hparty hsubject hwrites hkeeps hthread hdecided hage, ?_⟩
  have hread := readFromAll_of_writes hrecords hpath hwrites
  rw [hsubject] at hread
  exact hread

/-- An answer comes from statuses that the query read and from grants that
some query read. -/
theorem resolved_of_returned (hw : w.Fresh)
    (hsets : ∀ k ttl key grants, parties k ≠ .set ttl key grants) {i : ℕ}
    {ttl : Option Duration} {engine : Engine} {request : Request}
    (hi : parties i = .query ttl engine request) {reply : Reply}
    (hret : (after cache w parties sched).threads i = .ret (.result (.ok reply))) :
    ∃ res, reply = request.reply res ∧
      Resolved engine request.query (sourcesAt i (after cache w parties sched).hist)
        (fun grants => ∃ k l,
          ReadBy cache parties (after cache w parties sched).hist i ttl engine request.subject
            k l ∧ ReadFromAll engine request.subject (sourcesAt k l) grants) res := by
  rcases after_history cache w parties sched with ⟨hrecords, hpaths, -, -⟩
  have hpath := hpaths i
  rw [hret, hi] at hpath
  have htriple : (Party.prog cache (.query ttl engine request)).Triple
      (StepAnsweredBy cache ttl engine request.subject
        (sourcesAt i (after cache w parties sched).hist)
        fun grants => ∃ k l,
          ReadBy cache parties (after cache w parties sched).hist i ttl engine request.subject
            k l ∧ ReadFromAll engine request.subject (sourcesAt k l) grants)
      _ _ := triple_query_between request
  have hanswers : ∀ ev ∈ trail i (after cache w parties sched).hist,
      StepAnsweredBy cache ttl engine request.subject
        (sourcesAt i (after cache w parties sched).hist)
        (fun grants => ∃ k l,
          ReadBy cache parties (after cache w parties sched).hist i ttl engine request.subject
            k l ∧ ReadFromAll engine request.subject (sourcesAt k l) grants) ev.op ev.resp := by
    intro ev hev
    constructor
    · have hall := hrecords
      rw [← List.append_nil (after cache w parties sched).hist] at hall
      exact read_of_trail hall hev
    · intro now grants hdecided
      obtain ⟨o, ho, hthread, rfl⟩ := mem_trail.mp hev
      obtain ⟨l₁, n, hhist⟩ := List.append_of_mem ho
      exact readBy_of_decided hw hsets hhist hthread hdecided
  obtain ⟨res, hreply, hresolved⟩ := (htriple.path hpath hanswers).1 reply rfl
  refine ⟨res, hreply, hresolved.mono fun grants hgrants => ?_⟩
  rcases hgrants with hfound | hown
  · exact hfound
  · exact ⟨i, _, .own, hown⟩

end Runs

/-! ## The bracket -/

/-- Over every interleaving of queries, changes of the data and invalidations
on clones of one cache that starts out empty: an answer comes from statuses
that the query read, and from grants that some query of the same subject and
configuration read. What follows from data that was there whenever that query
took a step is allowed; what is allowed follows from data each piece of which
was there at one of these steps. -/
theorem query_bracket [DefaultHasher] (cache : MemoryCache) (w : World) (hw : w.Fresh)
    (parties : ℕ → Party) (hsets : ∀ k ttl key grants, parties k ≠ .set ttl key grants)
    (sched : List ℕ) (i : ℕ) (ttl : Option Duration) (engine : Engine) (request : Request)
    (hi : parties i = .query ttl engine request) (reply : Reply)
    (hret : (after cache w parties sched).threads i = .ret (.result (.ok reply))) :
    ∃ res, reply = request.reply res ∧
      Explained
        (fun status => ∃ src ∈ sourcesAt i (after cache w parties sched).hist,
          src.tenantStatus request.subject.tenant = .ok status)
        (fun status => ∃ src ∈ sourcesAt i (after cache w parties sched).hist,
          src.membershipStatus request.subject = .ok status)
        (fun scope => ∃ k l,
          ReadBy cache parties (after cache w parties sched).hist i ttl engine request.subject
            k l ∧
          Bracketed engine.config request.query
            (always (sourcesAt k l) fun src => src.data request.subject)
            (ever (sourcesAt k l) fun src => src.data request.subject) scope) res := by
  obtain ⟨res, hreply, hresolved⟩ := resolved_of_returned hw hsets hi hret
  refine ⟨res, hreply, hresolved.explained ?_⟩
  rintro grants ⟨k, l, hread, hgrants⟩
  exact ⟨k, l, hread, bracketed_decide request.query hgrants⟩

/-- The clerk has been dismissed and the clerk's entries dropped when query `0`
caches what it read before; query `3` is answered from that. -/
theorem query_bracket_sample :
    ∃ k l, @ReadBy Sample.hasher Sample.cache Sample.dismissal
        (@after Sample.hasher Sample.cache Sample.world Sample.dismissal
          [0, 0, 0, 0, 0, 0, 1, 2, 0, 0, 3, 3, 3, 3]).hist
        3 none (Engine.build default) Sample.subject k l ∧
      Bracketed default Sample.query
        (always (sourcesAt k l) fun src => src.data Sample.subject)
        (ever (sourcesAt k l) fun src => src.data Sample.subject) (.tenant Sample.tenant) := by
  obtain ⟨res, hreply, hres⟩ := @query_bracket Sample.hasher Sample.cache Sample.world
    (fun _ => rfl) Sample.dismissal Sample.dismissal_ne_set
    [0, 0, 0, 0, 0, 0, 1, 2, 0, 0, 3, 3, 3, 3] 3 none (Engine.build default)
    (.accessibleScope Sample.query) rfl (.scope (.tenant Sample.tenant)) rfl
  cases hres with
  | tenantInactive => cases hreply
  | principalInactive => cases hreply
  | decided _ _ hscope =>
    cases hreply
    exact hscope

end RsTenant
