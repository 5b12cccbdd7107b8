import RsTenant.Lib.Projection
import RsTenant.Mediation
import RsTenant.Moments

/-! # Requests next to each other

On a server many requests are under way at once, each behind `JwtAuthLayer` and
`TenantAuthorizeLayer`, while the data changes and entries of the shared cache
are invalidated. To the engines' surroundings such a server is a pool of queries
(`server_shows`), so what is known of these says on which grounds the inner
service is called (`request_end_to_end`).
-/

namespace RsTenant.Axum

open Interact

/-! ## One request -/

/-- What has become of a request: the calls of the inner service it has led to,
its answer if there is one, and the grounds. -/
inductive Handled {Q ε : Type} (Grounds : AccessDecision → Prop) (req : Q) :
    List Q → Option (Except ε Response) → Prop
  | pending : Handled Grounds req [] none
  | forbidden (h : Grounds .deny) :
      Handled Grounds req [] (some (.ok (intoResponse .forbidden "forbidden")))
  | failed : Handled Grounds req [] (some (.ok (intoResponse .internalServerError "auth error")))
  | notReady (h : Grounds .allow) (e : ε) : Handled Grounds req [] (some (.error e))
  | called (h : Grounds .allow) (res : Option (Except ε Response)) : Handled Grounds req [req] res

/-- The ends of a guarded request, with the grounds of the engine's answer. -/
theorem Guarded.handled {E : Sig} {Q ε : Type} {ask : Prog E (Except Error AccessDecision)}
    {missing : String} {req : Q} {tr : List (Event (E.sum (InnerSig Q ε)))}
    {q : Prog (E.sum (InnerSig Q ε)) (Except ε Response)} (h : Guarded (some ask) missing req tr q)
    {Grounds : AccessDecision → Prop}
    (hgrounds : ∀ d asked, Prog.Path ask asked (.ret (.ok d)) → asked.map Event.left <+: tr →
      Grounds d) :
    Handled Grounds req (innerCalls tr q) q.result? := by
  by_cases hgranted : Granted (some ask) tr
  · rw [h.once hgranted]
    obtain ⟨_, asked, hquestion, hask, hbefore, -⟩ := hgranted
    cases hquestion
    exact .called (hgrounds _ asked hask hbefore) _
  · rw [h.otherwise hgranted]
    cases q with
    | call op k => exact .pending
    | ret res =>
      cases h.ends res rfl with
      | unauthorized hquestion => cases hquestion
      | forbidden hquestion hask =>
        cases hquestion
        exact .forbidden (hgrounds _ _ hask List.prefix_rfl)
      | failed => exact .failed
      | notReady e hquestion hask =>
        cases hquestion
        exact .notReady (hgrounds _ _ hask (List.prefix_append _ _)) e
      | served res hquestion hask =>
        -- a request that was served had been granted access
        refine absurd ⟨_, _, hquestion, hask, List.prefix_append _ _, ?_⟩ hgranted
        exact List.mem_append_right _ List.mem_cons_self

/-- The answer is passed on. -/
theorem Handled.of_map {E : Sig} {Q ε : Type} {req : Q} {Grounds : AccessDecision → Prop}
    {tr : List (Event (E.sum (InnerSig Q ε)))}
    {q : Prog (E.sum (InnerSig Q ε)) (Except ε Response)}
    {q' : Prog (E.sum (InnerSig Q ε)) (Option (Except ε Response))}
    (hq : q' = q >>= fun res => .ret (some res))
    (h : Handled Grounds req (innerCalls tr q) q.result?) :
    Handled Grounds req (innerCalls tr q') q'.result?.join := by
  have hcalls : innerCalls tr q' = innerCalls tr q := by
    unfold innerCalls
    rw [hq, Prog.issued_map]
  have hresult : q'.result?.join = q.result? := by
    rw [hq, Prog.result?_map]
    cases q.result? <;> rfl
  rw [hcalls, hresult]
  exact h

/-! ## The server -/

section

variable [DefaultHasher] {C X ε τ : Type} [JwtClaims C]

/-- The layer of an engine that uses the cache. -/
def TenantAuthorizeLayer.withCache (cache : MemoryCache) (engine : Engine)
    (permission : Permission) : TenantAuthorizeLayer WorldSig where
  canTenant request := (engine.canTenant request).run.subst cache.lower
  permission := permission

/-- A request on some route, or anything else that happens to the cache, the
data and the clock. -/
inductive Client (C X : Type) where
  | request (ttl : Option Duration) (engine : Engine) (permission : Permission)
      (req : Request C X)
  | other (party : Party)

def Client.prog (cache : MemoryCache) (jwt : JwtAuthLayer C) :
    Client C X → Prog (WorldSig.sum (InnerSig (Request C X) ε)) (Option (Except ε Response))
  | .request ttl engine permission req => do
    let layer := TenantAuthorizeLayer.withCache (cache.cloneWith ttl) engine permission
    let res ← (jwt.layer (layer.layer (handler WorldSig (Request C X) ε))).call req
    return some res
  | .other party => do
    let _ ← (party.prog cache).left
    return none

/-- The state after the clients have taken turns; `service` is the inner
service, with a state of its own. -/
def serverAfter (cache : MemoryCache) (w : World) (service : Handler (InnerSig (Request C X) ε) τ)
    (t : τ) (jwt : JwtAuthLayer C) (clients : ℕ → Client C X) (sched : List ℕ) :
    Pool (WorldSig.sum (InnerSig (Request C X) ε)) (World × τ) (Option (Except ε Response)) :=
  Pool.run (Handler.beside World.handle service)
    { shared := (w, t), threads := fun i => (clients i).prog cache jwt, hist := [] } sched

/-! ## What the server does to the cache -/

/-- What the client does there. A request that is turned away does nothing. -/
def Client.party (jwt : JwtAuthLayer C) : Client C X → Party
  | .request ttl engine permission req =>
    match jwt.state.decodeFromHeaders req.headers with
    | .ok auth => .query ttl engine (.canTenant ⟨auth.context.subject, permission⟩)
    | .error _ => .mutate id
  | .other party => party

/-- A query is the engine's check, with the decision passed on. -/
theorem prog_canTenant (cache : MemoryCache) (ttl : Option Duration) (engine : Engine)
    (request : TenantAccessRequest) :
    Party.prog cache (.query ttl engine (.canTenant request)) =
      (engine.canTenant request).run.subst (cache.cloneWith ttl).lower >>= fun res =>
        .ret (.result (res.map Reply.decision)) := by
  show (Reply.decision <$> engine.canTenant request).run.subst _ >>= _ = _
  rw [Fallible.run_map, Prog.subst_bind, bind_assoc]
  rfl

section Programs

variable {cache : MemoryCache} {jwt : JwtAuthLayer C} {ttl : Option Duration} {engine : Engine}
  {permission : Permission} {req : Request C X} {auth : JwtAuth C}

/-- A request without a valid token asks nothing. -/
theorem prog_rejected {err : AuthError} (h : jwt.state.decodeFromHeaders req.headers = .error err) :
    (Client.request ttl engine permission req).prog (ε := ε) cache jwt =
      .ret (some (.ok (intoResponse .unauthorized err.display))) := by
  show ((jwt.layer (TenantAuthorizeLayer.layer _ (handler WorldSig (Request C X) ε))).call req
    >>= fun res => .ret (some res)) = _
  rw [call_of_rejected h]
  rfl

/-- Any other asks for the subject of its token. -/
theorem prog_decoded (h : jwt.state.decodeFromHeaders req.headers = .ok auth) :
    (Client.request ttl engine permission req).prog (ε := ε) cache jwt =
      ((TenantAuthorizeLayer.withCache (cache.cloneWith ttl) engine permission).layer
        (handler WorldSig (Request C X) ε)).call (req.withAuth auth) >>= fun res =>
          .ret (some res) := by
  show ((jwt.layer (TenantAuthorizeLayer.layer _ (handler WorldSig (Request C X) ε))).call req
    >>= fun res => .ret (some res)) = _
  rw [call_of_decoded h]

omit [DefaultHasher] in
theorem party_of_decoded (h : jwt.state.decodeFromHeaders req.headers = .ok auth) :
    (Client.request ttl engine permission req).party jwt =
      .query ttl engine (.canTenant ⟨auth.context.subject, permission⟩) := by
  simp only [Client.party, h]

omit [DefaultHasher] [JwtClaims C] in
/-- What is done with a decision concerns the inner service only. -/
theorem shows_respond {α : Type} (req : Request C X) (d : Except Error AccessDecision)
    (p : Prog WorldSig α) :
    (respond (handler WorldSig (Request C X) ε) req d >>= fun res => .ret (some res)).Shows p := by
  cases d with
  | error e => trivial
  | ok d =>
    cases d with
    | deny => trivial
    | allow =>
      intro ready
      cases ready with
      | error e => trivial
      | ok u => exact fun res => trivial

/-- To the cache, a client is the one query it asks. -/
theorem Client.shows (cache : MemoryCache) (jwt : JwtAuthLayer C) (client : Client C X) :
    (client.prog (ε := ε) cache jwt).Shows ((client.party jwt).prog cache) := by
  cases client with
  | other party =>
    have hshows : ((party.prog cache).left >>= fun _ => .ret none :
        Prog (WorldSig.sum (InnerSig (Request C X) ε)) (Option (Except ε Response))).Shows
        (party.prog cache >>= .ret) := Prog.Shows.left_bind _ fun _ => trivial
    -- the party does what it does by itself, and its result is dropped
    rw [Prog.bind_ret] at hshows
    exact hshows
  | request ttl engine permission req =>
    cases hdecoded : jwt.state.decodeFromHeaders req.headers with
    | error err =>
      rw [prog_rejected hdecoded]
      trivial
    | ok auth =>
      rw [prog_decoded hdecoded, party_of_decoded hdecoded, prog_canTenant]
      show ((_ >>= fun d => respond _ (req.withAuth auth) d) >>= _ : Prog _ _).Shows _
      rw [bind_assoc]
      exact Prog.Shows.left_bind _ fun d => shows_respond _ d _

end Programs

variable {cache : MemoryCache} {w : World} {service : Handler (InnerSig (Request C X) ε) τ} {t : τ}
  {jwt : JwtAuthLayer C} {clients : ℕ → Client C X} {sched : List ℕ}

/-- What the server does to the cache, the data and the clock is what the
clients' queries and the other parties do by themselves. -/
theorem server_shows (cache : MemoryCache) (w : World)
    (service : Handler (InnerSig (Request C X) ε) τ) (t : τ) (jwt : JwtAuthLayer C)
    (clients : ℕ → Client C X) (sched : List ℕ) :
    ∃ sched', sched'.Sublist sched ∧
      (serverAfter cache w service t jwt clients sched).ShowsPool
        (after cache w (fun k => (clients k).party jwt) sched') :=
  Pool.run_project (d := launch cache w fun k => (clients k).party jwt)
    ⟨rfl, fun i => (clients i).shows cache jwt, rfl⟩ World.handle service sched

/-! ## Grounds -/

section Grounds

variable (cache : MemoryCache) (parties : ℕ → Party) (hist : List (Occ WorldSig World)) (i : ℕ)
  (ttl : Option Duration) (engine : Engine) (subject : AuthSubject) (permission : Permission)

/-- What a decision on access to the whole tenant rests on. It is to allow because
the query saw that both statuses are active, and because access follows from data
each piece of which was there at some step of the query that read the grants. It
is to deny because one of the statuses was seen to be inactive, or because access
does not follow from the data that was there at all of these steps. -/
def Grounds : AccessDecision → Prop
  | .allow =>
    (∃ src ∈ sourcesAt i hist, src.tenantStatus subject.tenant = .ok .active) ∧
    (∃ src ∈ sourcesAt i hist, src.membershipStatus subject = .ok .active) ∧
    ∃ k l, ReadBy cache parties hist i ttl engine subject k l ∧
      ∃ a, Datum.Matched engine.config.enableRoleHierarchy
        (ever (sourcesAt k l) fun src => src.data subject) engine.config.enableWildcard
        permission a ∧ a.scope = .tenant
  | .deny =>
    (∃ src ∈ sourcesAt i hist, src.tenantStatus subject.tenant = .ok .inactive) ∨
    (∃ src ∈ sourcesAt i hist, src.membershipStatus subject = .ok .inactive) ∨
    ∃ k l, ReadBy cache parties hist i ttl engine subject k l ∧
      ∀ a, Datum.Matched engine.config.enableRoleHierarchy
        (always (sourcesAt k l) fun src => src.data subject) engine.config.enableWildcard
        permission a → a.scope ≠ .tenant

end Grounds

omit [JwtClaims C] in
theorem grounds_of_decided (hw : w.Fresh) {parties : ℕ → Party}
    (hsets : ∀ k ttl key grants, parties k ≠ .set ttl key grants) {i : ℕ}
    {ttl : Option Duration} {engine : Engine} {subject : AuthSubject} {permission : Permission}
    (hi : parties i = .query ttl engine (.canTenant ⟨subject, permission⟩)) {d : AccessDecision}
    (hret : (after cache w parties sched).threads i = .ret (.result (.ok (.decision d)))) :
    Grounds cache parties (after cache w parties sched).hist i ttl engine subject permission d := by
  obtain ⟨res, hreply, hresolved⟩ := resolved_of_returned hw hsets hi hret
  cases hresolved with
  | tenantInactive hsrc htenant =>
    cases hreply
    exact .inl ⟨_, hsrc, htenant⟩
  | principalInactive _ _ hsrc hmember =>
    cases hreply
    exact .inr (.inl ⟨_, hsrc, hmember⟩)
  | @decided src src' hsrc htenant hsrc' hmember grants hgrants =>
    obtain ⟨k, l, hread, hbetween⟩ := hgrants
    -- the decision lies between what all and what any of the reader's states give
    have hbracketed := bracketed_decide ⟨subject, permission⟩ hbetween
    have hd : d = (Engine.explainWholeTenant (engine.decide ⟨subject, permission⟩ grants).1
        (engine.decide ⟨subject, permission⟩ grants).2).decision := Reply.decision.inj hreply
    have hallow : d = .allow ↔ ∃ t, (engine.decide ⟨subject, permission⟩ grants).1 = .tenant t := by
      rw [hd]
      exact explainWholeTenant_decision _ _
    cases d with
    | allow =>
      obtain ⟨t', ht⟩ := hallow.mp rfl
      exact ⟨⟨src, hsrc, htenant⟩, ⟨src', hsrc', hmember⟩, k, l, hread, hbracketed.ofTenant t' ht⟩
    | deny =>
      refine .inr (.inr ⟨k, l, hread, fun a ha hwhole => ?_⟩)
      cases hallow.mpr ⟨_, hbracketed.wholeTenant a ha hwhole⟩

/-- When the engine has been asked for a decision, so has the cache's query. -/
theorem returned_of_asked {i : ℕ} {ttl : Option Duration} {engine : Engine}
    {permission : Permission} {req : Request C X} {auth : JwtAuth C}
    (hi : clients i = .request ttl engine permission req)
    (hdecoded : jwt.state.decodeFromHeaders req.headers = .ok auth) {sched' : List ℕ}
    (hshows : (serverAfter cache w service t jwt clients sched).ShowsPool
      (after cache w (fun k => (clients k).party jwt) sched')) {d : AccessDecision}
    {asked : List (Event WorldSig)}
    (hask : Prog.Path ((engine.canTenant ⟨auth.context.subject, permission⟩).run.subst
      (cache.cloneWith ttl).lower) asked (.ret (.ok d)))
    (hbefore : asked.map Event.left <+:
      trail i (serverAfter cache w service t jwt clients sched).hist) :
    (after cache w (fun k => (clients k).party jwt) sched').threads i =
      .ret (.result (.ok (.decision d))) := by
  obtain ⟨rest, hrest⟩ := hbefore
  have htrail : trail i (after cache w (fun k => (clients k).party jwt) sched').hist =
      asked ++ rest.filterMap Event.first := by
    rw [← hshows.hist, trail_firstHist, ← hrest, List.filterMap_append, filterMap_first_left]
  -- the query has got the same answers, so it has come to the same decision
  have hpath := (after_history cache w (fun k => (clients k).party jwt) sched').2.1 i
  rw [htrail, hi, party_of_decoded hdecoded, prog_canTenant] at hpath
  have hasked := hask.bind (f := fun res => .ret (Returned.result (res.map Reply.decision)))
    (.refl _)
  rw [List.append_nil] at hasked
  exact (hasked.cancel hpath).of_ret.2

/-- Over every interleaving of requests behind `JwtAuthLayer` and
`TenantAuthorizeLayer` with changes of the data and invalidations, on clones of
one cache that starts out empty, whatever the inner service does: a request
without a valid token is turned away and does nothing else. Any other one is
passed on at most once, with the subject of its token, and whether it is rests on
grounds that its own query saw, or the one whose entry that query found. -/
theorem request_end_to_end (cache : MemoryCache) (w : World) (hw : w.Fresh)
    (service : Handler (InnerSig (Request C X) ε) τ) (t : τ) (jwt : JwtAuthLayer C)
    (clients : ℕ → Client C X)
    (hsets : ∀ k ttl key grants, clients k ≠ .other (.set ttl key grants)) (sched : List ℕ) (i : ℕ)
    (ttl : Option Duration) (engine : Engine) (permission : Permission) (req : Request C X)
    (hi : clients i = .request ttl engine permission req) :
    let c := serverAfter cache w service t jwt clients sched
    (∀ err, jwt.state.decodeFromHeaders req.headers = .error err → trail i c.hist = [] ∧
      c.threads i = .ret (some (.ok (intoResponse .unauthorized err.display)))) ∧
    ∀ auth, jwt.state.decodeFromHeaders req.headers = .ok auth →
      Handled (Grounds cache (fun k => (clients k).party jwt) (firstHist c.hist) i ttl engine
          auth.context.subject permission)
        (req.withAuth auth) (innerCalls (trail i c.hist) (c.threads i))
        (c.threads i).result?.join := by
  intro c
  have hpath : Prog.Path ((clients i).prog cache jwt) (trail i c.hist) (c.threads i) :=
    (Pool.run_from_start (Handler.beside World.handle service) (w, t)
      (fun k => (clients k).prog cache jwt) sched).2 i
  rw [hi] at hpath
  constructor
  · intro err hdecoded
    rw [prog_rejected hdecoded] at hpath
    exact hpath.of_ret
  · intro auth hdecoded
    rw [prog_decoded hdecoded] at hpath
    obtain ⟨q, hcall, hq⟩ := hpath.of_map
    refine Handled.of_map hq ((guarded_tenant hcall).handled fun d asked hask hbefore => ?_)
    obtain ⟨sched', -, hshows⟩ := server_shows cache w service t jwt clients sched
    have hparty : (clients i).party jwt =
        .query ttl engine (.canTenant ⟨auth.context.subject, permission⟩) := by
      rw [hi, party_of_decoded hdecoded]
    -- a request asks a query or does nothing
    have hnever : ∀ k ttl key grants, (clients k).party jwt ≠ .set ttl key grants := by
      intro k ttl' key grants hset
      cases hclient : clients k with
      | other party =>
        rw [hclient] at hset
        exact hsets k ttl' key grants (hclient.trans (congrArg Client.other hset))
      | request ttl'' engine' permission' req' =>
        rw [hclient] at hset
        cases hdec : jwt.state.decodeFromHeaders req'.headers with
        | ok auth' =>
          rw [party_of_decoded hdec] at hset
          cases hset
        | error err =>
          simp only [Client.party, hdec] at hset
          cases hset
    rw [hshows.hist]
    exact grounds_of_decided hw hnever hparty (returned_of_asked hi hdecoded hshows hask hbefore)

end

namespace Sample

open RsTenant.Sample

/-- All tokens are the clerk's. -/
def issuer : JwtAuthLayer DefaultClaims := ⟨⟨fun _ => some ⟨tenant.val, principal.val, none, none⟩⟩⟩

def bearing : Request DefaultClaims Unit where
  headers := [(authorization, "Bearer x".toList.map fun c => UInt8.ofNat c.toNat)]
  extensions := ⟨none, none, none, none, none⟩
  rest := ()

def bearer : JwtAuth DefaultClaims := ⟨⟨subject⟩, ⟨tenant.val, principal.val, none, none⟩⟩

theorem bearing_decoded : issuer.state.decodeFromHeaders bearing.headers = .ok bearer := rfl

/-- The clerk asks, and is dismissed in the meantime. -/
def asking (k : ℕ) : Client DefaultClaims Unit :=
  if k = 1 then .other (.mutate fun _ => dismissed.source)
  else .request none (Engine.build default) read bearing

theorem asking_ne_set (k : ℕ) (ttl : Option Duration) (key : CacheKey)
    (grants : List EffectiveGrant) : asking k ≠ .other (.set ttl key grants) := by
  unfold asking
  split <;> nofun

def page : Handler (InnerSig (Request DefaultClaims Unit) Empty) Unit
  | .pollReady, s => (.ok (), s)
  | .call _, s => (.ok ⟨200, ""⟩, s)

/-- The dismissal comes right before the grants are cached. -/
def served : Pool (WorldSig.sum (InnerSig (Request DefaultClaims Unit) Empty)) (World × Unit)
    (Option (Except Empty Response)) :=
  @serverAfter hasher _ _ _ _ _ cache world page () issuer asking [0, 0, 0, 0, 0, 0, 1, 0, 0, 0, 0]

end Sample

/-- The clerk's request has been answered, on grounds that were there before. -/
theorem request_end_to_end_sample :
    @Grounds Sample.hasher Sample.cache (fun k => (Sample.asking k).party Sample.issuer)
      (firstHist Sample.served.hist) 0 none (Engine.build default) Sample.subject Sample.read
      .allow := by
  have h := (@request_end_to_end Sample.hasher _ _ _ _ _ Sample.cache Sample.world (fun _ => rfl)
    Sample.page () Sample.issuer Sample.asking Sample.asking_ne_set
    [0, 0, 0, 0, 0, 0, 1, 0, 0, 0, 0] 0 none (Engine.build default) Sample.read Sample.bearing
    rfl).2 Sample.bearer Sample.bearing_decoded
  have hanswer : (Sample.served.threads 0).result?.join = some (.ok ⟨200, ""⟩) := rfl
  change Handled _ _ _ (Sample.served.threads 0).result?.join at h
  rw [hanswer] at h
  cases h with
  | called hgrounds => exact hgrounds

end RsTenant.Axum
