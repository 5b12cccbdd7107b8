import RsTenant.Axum
import RsTenant.Reference

/-! # Complete mediation

Behind an authorization layer a service is called exactly when the layer has
found a subject, the engine has allowed it and the service has become ready;
the request reaches it unchanged, and only once. Every other end of a request
is one of four (`Mediated`). Behind both layers the subject is the one in the
token, whatever the extensions held before (`complete_mediation`).
-/

namespace RsTenant.Axum

open Interact

section

variable {E : Sig} {Q ε : Type}

/-! ## What a guarded request can come to -/

/-- The inner service has become ready, or has failed to. -/
abbrev polled (r : Except ε Unit) : Event (E.sum (InnerSig Q ε)) := ⟨.inr .pollReady, r⟩

/-- The inner service has answered a request. -/
abbrev answered (req : Q) (res : Except ε Response) : Event (E.sum (InnerSig Q ε)) :=
  ⟨.inr (.call req), res⟩

/-- The request that the inner service is called with. -/
def called : (E.sum (InnerSig Q ε)).Op → Option Q
  | .inr (.call req) => some req
  | _ => none

/-- The calls of the inner service in a run that has got this far, the one that
is under way included. -/
def innerCalls {α : Type} (tr : List (Event (E.sum (InnerSig Q ε))))
    (q : Prog (E.sum (InnerSig Q ε)) α) : List Q :=
  (Prog.issued tr q).filterMap called

/-- There is a question for the engine, it has answered that it allows the
access, and the inner service has become ready. -/
def Granted (question : Option (Prog E (Except Error AccessDecision)))
    (tr : List (Event (E.sum (InnerSig Q ε)))) : Prop :=
  ∃ ask asked, question = some ask ∧ Prog.Path ask asked (.ret (.ok .allow)) ∧
    asked.map Event.left <+: tr ∧ polled (.ok ()) ∈ tr

/-- The ways in which a guarded request ends: with what has been asked, and how
it is answered. -/
inductive Mediated (question : Option (Prog E (Except Error AccessDecision))) (missing : String)
    (req : Q) : List (Event (E.sum (InnerSig Q ε))) → Except ε Response → Prop
  | unauthorized (h : question = none) :
      Mediated question missing req [] (.ok (intoResponse .unauthorized missing))
  | forbidden {ask : Prog E (Except Error AccessDecision)} {asked : List (Event E)}
      (h : question = some ask) (hask : Prog.Path ask asked (.ret (.ok .deny))) :
      Mediated question missing req (asked.map Event.left)
        (.ok (intoResponse .forbidden "forbidden"))
  | failed {ask : Prog E (Except Error AccessDecision)} {asked : List (Event E)} {err : Error}
      (h : question = some ask) (hask : Prog.Path ask asked (.ret (.error err))) :
      Mediated question missing req (asked.map Event.left)
        (.ok (intoResponse .internalServerError "auth error"))
  | notReady {ask : Prog E (Except Error AccessDecision)} {asked : List (Event E)} (e : ε)
      (h : question = some ask) (hask : Prog.Path ask asked (.ret (.ok .allow))) :
      Mediated question missing req (asked.map Event.left ++ [polled (.error e)]) (.error e)
  | served {ask : Prog E (Except Error AccessDecision)} {asked : List (Event E)}
      (res : Except ε Response) (h : question = some ask)
      (hask : Prog.Path ask asked (.ret (.ok .allow))) :
      Mediated question missing req
        (asked.map Event.left ++ [polled (.ok ()), answered req res]) res

/-- What can be seen of a guarded request, finished or not: the inner service is
called once if access has been granted, and not otherwise. -/
structure Guarded (question : Option (Prog E (Except Error AccessDecision))) (missing : String)
    (req : Q) (tr : List (Event (E.sum (InnerSig Q ε))))
    (q : Prog (E.sum (InnerSig Q ε)) (Except ε Response)) : Prop where
  once : Granted question tr → innerCalls tr q = [req]
  otherwise : ¬ Granted question tr → innerCalls tr q = []
  ends : ∀ res, q = .ret res → Mediated question missing req tr res

/-! ## Calling the inner service -/

/-- The engine's operations are not calls of the inner service. -/
theorem filterMap_called_left (asked : List (Event E)) :
    ((asked.map Event.left).map Event.op).filterMap (called (E := E) (Q := Q) (ε := ε)) = [] := by
  rw [List.filterMap_eq_nil_iff]
  intro op hop
  simp only [List.map_map, List.mem_map, Function.comp_apply] at hop
  rcases hop with ⟨ev, -, rfl⟩
  rfl

theorem innerCalls_left_append {α : Type} (asked : List (Event E))
    (tr : List (Event (E.sum (InnerSig Q ε)))) (q : Prog (E.sum (InnerSig Q ε)) α) :
    innerCalls (asked.map Event.left ++ tr) q = innerCalls tr q := by
  unfold innerCalls
  rw [Prog.issued_append, List.filterMap_append, filterMap_called_left, List.nil_append]

theorem polled_mem_left_append {asked : List (Event E)}
    {tr : List (Event (E.sum (InnerSig Q ε)))} {r : Except ε Unit} :
    polled r ∈ asked.map Event.left ++ tr ↔ polled r ∈ tr := by
  constructor
  · intro h
    rcases List.mem_append.mp h with hleft | h
    · rcases List.mem_map.mp hleft with ⟨ev, -, hev⟩
      -- the engine's operations are on the left, becoming ready is on the right
      have hop := congrArg Event.op hev
      cases hop
    · exact h
  · exact List.mem_append_right _

theorem polled_ok_ne (e : ε) :
    (polled (.ok ()) : Event (E.sum (InnerSig Q ε))) ≠ polled (.error e) := by
  intro h
  injection h with _ hresp
  cases hresp

/-- Asking the inner service for its answer: it is not known to be ready yet,
it is not ready, it is being called, or it has answered. -/
theorem forward_path {req : Q} {tr : List (Event (E.sum (InnerSig Q ε)))}
    {q : Prog (E.sum (InnerSig Q ε)) (Except ε Response)}
    (h : Prog.Path ((handler E Q ε).forward req) tr q) :
    (tr = [] ∧ innerCalls tr q = [] ∧ ∀ res, q ≠ .ret res) ∨
      (∃ e, tr = [polled (.error e)] ∧ q = .ret (.error e)) ∨
      (tr = [polled (.ok ())] ∧ innerCalls tr q = [req] ∧ ∀ res, q ≠ .ret res) ∨
      ∃ res, tr = [polled (.ok ()), answered req res] ∧ q = .ret res := by
  cases h with
  | refl => exact .inl ⟨rfl, rfl, fun _ => nofun⟩
  | step r h =>
    cases r with
    | error e =>
      rcases h.of_ret with ⟨rfl, rfl⟩
      exact .inr (.inl ⟨e, rfl, rfl⟩)
    | ok u =>
      cases h with
      | refl => exact .inr (.inr (.inl ⟨rfl, rfl, fun _ => nofun⟩))
      | step res h =>
        rcases h.of_ret with ⟨rfl, rfl⟩
        exact .inr (.inr (.inr ⟨res, rfl, rfl⟩))

/-! ## Authorization -/

variable {σ : Type} {subject : Option σ} {missing : String}
  {can : σ → Prog E (Except Error AccessDecision)} {req : Q}
  {tr : List (Event (E.sum (InnerSig Q ε)))}

/-- While the engine is still being asked, nothing is called. -/
theorem innerCalls_asking {α β : Type} {p : Prog E α} {op : (E.sum (InnerSig Q ε)).Op}
    {k : (E.sum (InnerSig Q ε)).Resp op → Prog (E.sum (InnerSig Q ε)) α}
    (h : Prog.Path p.left tr (.call op k))
    (k' : (E.sum (InnerSig Q ε)).Resp op → Prog (E.sum (InnerSig Q ε)) β) :
    innerCalls tr (.call op k') = [] ∧ ∃ asked : List (Event E), tr = asked.map Event.left := by
  rcases h.of_left with ⟨asked, q, -, rfl, hq⟩
  cases q with
  | ret a => cases hq
  | call opE kE =>
    have hop : op = .inl opE := by
      injection hq
    refine ⟨?_, asked, rfl⟩
    unfold innerCalls Prog.issued
    rw [List.filterMap_append, filterMap_called_left, hop]
    rfl

variable {question : Option (Prog E (Except Error AccessDecision))}
  {q : Prog (E.sum (InnerSig Q ε)) (Except ε Response)}

/-- While the inner service has not become ready, access has not been granted. -/
theorem Guarded.of_not_ready (hready : polled (.ok ()) ∉ tr) (hnone : innerCalls tr q = [])
    (hends : ∀ res, q = .ret res → Mediated question missing req tr res) :
    Guarded question missing req tr q := by
  refine ⟨fun hgranted => ?_, fun _ => hnone, hends⟩
  obtain ⟨_, _, _, _, _, hmem⟩ := hgranted
  exact absurd hmem hready

theorem Guarded.of_granted (hgranted : Granted question tr) (hone : innerCalls tr q = [req])
    (hends : ∀ res, q = .ret res → Mediated question missing req tr res) :
    Guarded question missing req tr q :=
  ⟨fun _ => hone, fun hno => absurd hgranted hno, hends⟩

/-- The engine has allowed the access, and the inner service is asked. -/
theorem guarded_forward {ask : Prog E (Except Error AccessDecision)} {asked : List (Event E)}
    (hask : Prog.Path ask asked (.ret (.ok .allow)))
    (hrest : Prog.Path ((handler E Q ε).forward req) tr q) :
    Guarded (some ask) missing req (asked.map Event.left ++ tr) q := by
  have hgranted : polled (.ok ()) ∈ tr → Granted (some ask) (asked.map Event.left ++ tr) := by
    intro hready
    exact ⟨ask, asked, rfl, hask, List.prefix_append _ _, List.mem_append_right _ hready⟩
  have hcalls : innerCalls (asked.map Event.left ++ tr) q = innerCalls tr q :=
    innerCalls_left_append asked tr q
  rcases forward_path hrest with ⟨rfl, hnone, hq⟩ | ⟨e, rfl, rfl⟩ | ⟨rfl, hone, hq⟩ |
    ⟨res', rfl, rfl⟩
  · -- not known to be ready yet
    apply Guarded.of_not_ready
    · rw [polled_mem_left_append]
      exact List.not_mem_nil
    · exact hcalls.trans hnone
    · intro res hres
      exact absurd hres (hq res)
  · -- not ready
    apply Guarded.of_not_ready
    · rw [polled_mem_left_append, List.mem_singleton]
      exact polled_ok_ne e
    · exact hcalls
    · intro res hres
      cases hres
      exact .notReady e rfl hask
  · -- being called
    apply Guarded.of_granted (hgranted List.mem_cons_self) (hcalls.trans hone)
    intro res hres
    exact absurd hres (hq res)
  · -- answered
    apply Guarded.of_granted (hgranted List.mem_cons_self) hcalls
    intro res hres
    cases hres
    exact .served _ rfl hask

/-- The engine has answered. -/
theorem guarded_respond {ask : Prog E (Except Error AccessDecision)} {asked : List (Event E)}
    {decision : Except Error AccessDecision} (hask : Prog.Path ask asked (.ret decision))
    (hrest : Prog.Path (respond (handler E Q ε) req decision) tr q) :
    Guarded (some ask) missing req (asked.map Event.left ++ tr) q := by
  have hturned : ∀ res : Except ε Response, Prog.Path (.ret res) tr q →
      Mediated (some ask) missing req (asked.map Event.left) res →
      Guarded (some ask) missing req (asked.map Event.left ++ tr) q := by
    intro res hret hend
    -- a response of the layer itself is the end, and nobody has been polled
    rcases hret.of_ret with ⟨rfl, rfl⟩
    apply Guarded.of_not_ready
    · rw [polled_mem_left_append]
      exact List.not_mem_nil
    · exact innerCalls_left_append asked [] _
    · intro res' hres
      cases hres
      rw [List.append_nil]
      exact hend
  cases decision with
  | error err => exact hturned _ hrest (.failed rfl hask)
  | ok decision =>
    cases decision with
    | deny => exact hturned _ hrest (.forbidden rfl hask)
    | allow => exact guarded_forward hask hrest

theorem guarded_authorize
    (h : Prog.Path (authorize subject missing (fun s => (can s).left) (handler E Q ε) req) tr q) :
    Guarded (subject.map can) missing req tr q := by
  cases subject with
  | none =>
    rcases h.of_ret with ⟨rfl, rfl⟩
    apply Guarded.of_not_ready List.not_mem_nil rfl
    intro res hres
    cases hres
    exact .unauthorized rfl
  | some s =>
    rcases Prog.Path.bind_cases h with ⟨op, k, hasking, rfl⟩ | ⟨tr₁, tr₂, d, rfl, hasked, hrest⟩
    · -- the engine has not answered yet
      obtain ⟨asked, hasked⟩ := (innerCalls_asking hasking k).2
      apply Guarded.of_not_ready
      · rw [hasked, ← List.append_nil (asked.map Event.left), polled_mem_left_append]
        exact List.not_mem_nil
      · exact (innerCalls_asking hasking _).1
      · exact fun _ => nofun
    · -- it has, and the rest is up to its answer
      rcases hasked.of_left with ⟨asked, q', hask, rfl, hd⟩
      cases q' with
      | call opE kE => cases hd
      | ret d' =>
        cases hd
        exact guarded_respond hask hrest

/-- Each of these ends is one that the request can come to. -/
theorem Mediated.path {res : Except ε Response}
    (h : Mediated (subject.map can) missing req tr res) :
    Prog.Path (authorize subject missing (fun s => (can s).left) (handler E Q ε) req) tr
      (.ret res) := by
  have hsubject : ∀ {ask}, subject.map can = some ask → ∃ s, subject = some s ∧ can s = ask :=
    fun h => Option.map_eq_some_iff.mp h
  cases h with
  | unauthorized h =>
    rw [Option.map_eq_none_iff.mp h]
    exact .refl _
  | forbidden h hask =>
    rcases hsubject h with ⟨s, rfl, rfl⟩
    rw [← List.append_nil (List.map _ _)]
    exact Prog.Path.bind hask.left (.refl _)
  | failed h hask =>
    rcases hsubject h with ⟨s, rfl, rfl⟩
    rw [← List.append_nil (List.map _ _)]
    exact Prog.Path.bind hask.left (.refl _)
  | notReady e h hask =>
    rcases hsubject h with ⟨s, rfl, rfl⟩
    exact Prog.Path.bind hask.left (.step _ (.refl _))
  | served _ h hask =>
    rcases hsubject h with ⟨s, rfl, rfl⟩
    exact Prog.Path.bind hask.left (.step _ (.step _ (.refl _)))

/-- A finished request has come to one of these ends. -/
theorem authorize_path {res : Except ε Response} :
    Prog.Path (authorize subject missing (fun s => (can s).left) (handler E Q ε) req) tr
      (.ret res) ↔ Mediated (subject.map can) missing req tr res :=
  ⟨fun h => (guarded_authorize h).ends res rfl, Mediated.path⟩

end

/-! ## Tokens -/

section

variable {C X : Type} [JwtClaims C] {state : JwtAuthState C}

theorem fromClaims_eq_ok {claims : C} {auth : JwtAuth C} :
    JwtAuth.fromClaims claims = .ok auth ↔
      ∃ tenant principal, TenantId.parse (JwtClaims.tenantId claims) = .ok tenant ∧
        PrincipalId.parse (JwtClaims.principalId claims) = .ok principal ∧
        auth = ⟨⟨⟨tenant, principal⟩⟩, claims⟩ := by
  unfold JwtAuth.fromClaims
  rw [Results.bind_eq_ok]
  constructor
  · rintro ⟨tenant, ht, h⟩
    rcases Results.bind_eq_ok.mp h with ⟨principal, hp, hauth⟩
    exact ⟨tenant, principal, Results.mapError_eq_ok.mp ht, Results.mapError_eq_ok.mp hp,
      (Except.ok.inj hauth).symm⟩
  · rintro ⟨tenant, principal, ht, hp, rfl⟩
    exact ⟨tenant, Results.mapError_eq_ok.mpr ht,
      Results.bind_eq_ok.mpr ⟨principal, Results.mapError_eq_ok.mpr hp, rfl⟩⟩

/-- What it takes for a request to be authenticated. -/
theorem decodeFromHeaders_eq_ok {headers : HeaderMap} {auth : JwtAuth C} :
    state.decodeFromHeaders headers = .ok auth ↔
      ∃ token claims tenant principal, bearerToken headers = .ok token ∧
        state.decode token = some claims ∧
        TenantId.parse (JwtClaims.tenantId claims) = .ok tenant ∧
        PrincipalId.parse (JwtClaims.principalId claims) = .ok principal ∧
        auth = ⟨⟨⟨tenant, principal⟩⟩, claims⟩ := by
  unfold JwtAuthState.decodeFromHeaders
  rw [Results.bind_eq_ok]
  constructor
  · rintro ⟨token, htoken, h⟩
    cases hclaims : state.decode token with
    | none =>
      rw [hclaims] at h
      cases h
    | some claims =>
      rw [hclaims] at h
      rcases fromClaims_eq_ok.mp h with ⟨tenant, principal, ht, hp, hauth⟩
      exact ⟨token, claims, tenant, principal, htoken, hclaims, ht, hp, hauth⟩
  · rintro ⟨token, claims, tenant, principal, htoken, hclaims, ht, hp, hauth⟩
    refine ⟨token, htoken, ?_⟩
    rw [hclaims]
    exact fromClaims_eq_ok.mpr ⟨tenant, principal, ht, hp, hauth⟩

/-- Behind the layer, a handler's extractor finds what the layer has decoded. -/
theorem fromRequestParts_withAuth (req : Request C X) (auth : JwtAuth C) :
    JwtAuth.fromRequestParts state (req.withAuth auth) = .ok (auth, req.withAuth auth) := rfl

/-- Where only the context is extracted, it is that of the default claims. -/
theorem fromRequestParts_context {X : Type} {state : JwtAuthState DefaultClaims}
    {req req' : Request DefaultClaims X} {auth : JwtAuth DefaultClaims}
    (h : JwtAuth.fromRequestParts state req = .ok (auth, req')) :
    AuthContext.fromRequestParts state req = .ok (auth.context, req') := by
  unfold AuthContext.fromRequestParts
  rw [h]
  rfl

end

/-! ## The two layers together -/

section

variable {E : Sig} {C X ε : Type} [JwtClaims C]

omit [JwtClaims C] in
theorem guarded_tenant {layer : TenantAuthorizeLayer E} {req : Request C X}
    {tr : List (Event (E.sum (InnerSig (Request C X) ε)))}
    {q : Prog (E.sum (InnerSig (Request C X) ε)) (Except ε Response)}
    (h : Prog.Path ((layer.layer (handler E (Request C X) ε)).call req) tr q) :
    Guarded (req.tenantSubject.map fun subject => layer.canTenant ⟨subject, layer.permission⟩)
      "missing auth context" req tr q :=
  guarded_authorize h

/-- An authenticated request is passed on with the subject of its token. -/
theorem call_of_decoded {jwt : JwtAuthLayer C} {layer : TenantAuthorizeLayer E}
    {inner : Service (E.sum (InnerSig (Request C X) ε)) (Request C X) ε} {req : Request C X}
    {auth : JwtAuth C} (h : jwt.state.decodeFromHeaders req.headers = .ok auth) :
    (jwt.layer (layer.layer inner)).call req = (layer.layer inner).call (req.withAuth auth) := by
  unfold JwtAuthLayer.layer
  simp only [h]
  rfl

/-- Any other request is turned away. -/
theorem call_of_rejected {jwt : JwtAuthLayer C} {layer : TenantAuthorizeLayer E}
    {inner : Service (E.sum (InnerSig (Request C X) ε)) (Request C X) ε} {req : Request C X}
    {err : AuthError} (h : jwt.state.decodeFromHeaders req.headers = .error err) :
    (jwt.layer (layer.layer inner)).call req =
      .ret (.ok (intoResponse .unauthorized err.display)) := by
  unfold JwtAuthLayer.layer
  simp only [h]
  rfl

omit [JwtClaims C] in
theorem tenantSubject_withAuth (req : Request C X) (auth : JwtAuth C) :
    (req.withAuth auth).tenantSubject = some auth.context.subject := rfl

/-- Whatever the engine's operations are answered and whatever the inner service
does. Behind `TenantAuthorizeLayer` the inner service is called once, with the
request as it is, when access has been granted to the subject found, and not
otherwise; a finished request has come to one of the ends of `Mediated`. Behind
`JwtAuthLayer` as well, it is called only for the subject of a valid token, which
then fills the slots of the extensions, and what these held before makes no
difference to anything. -/
theorem complete_mediation (layer : TenantAuthorizeLayer E) (jwt : JwtAuthLayer C)
    (req : Request C X) :
    let question := fun subject => layer.canTenant ⟨subject, layer.permission⟩
    let guarded := layer.layer (handler E (Request C X) ε)
    let stack := jwt.layer guarded
    (∀ tr q, Prog.Path (guarded.call req) tr q →
      (Granted (req.tenantSubject.map question) tr → innerCalls tr q = [req]) ∧
        (¬ Granted (req.tenantSubject.map question) tr → innerCalls tr q = [])) ∧
    (∀ tr res, Prog.Path (guarded.call req) tr (.ret res) ↔
      Mediated (req.tenantSubject.map question) "missing auth context" req tr res) ∧
    (∀ tr q, Prog.Path (stack.call req) tr q → innerCalls tr q = [] ∨
      ∃ token claims tenant principal, bearerToken req.headers = .ok token ∧
        jwt.state.decode token = some claims ∧
        TenantId.parse (JwtClaims.tenantId claims) = .ok tenant ∧
        PrincipalId.parse (JwtClaims.principalId claims) = .ok principal ∧
        Granted (some (question ⟨tenant, principal⟩)) tr ∧
        innerCalls tr q = [{ req with
          extensions := { req.extensions with
            authContext := some ⟨⟨tenant, principal⟩⟩
            authSubject := some ⟨tenant, principal⟩
            jwtAuth := some ⟨⟨⟨tenant, principal⟩⟩, claims⟩ } }]) ∧
    (∀ err, jwt.state.decodeFromHeaders req.headers = .error err →
      stack.call req = .ret (.ok (intoResponse .unauthorized err.display))) ∧
    ∀ authContext authSubject jwtAuth,
      stack.call { req with
        extensions := { req.extensions with
          authContext := authContext, authSubject := authSubject, jwtAuth := jwtAuth } } =
        stack.call req := by
  intro question guarded stack
  refine ⟨fun tr q h => ⟨(guarded_tenant h).once, (guarded_tenant h).otherwise⟩,
    fun tr res => authorize_path, fun tr q h => ?_, fun err => call_of_rejected,
    fun authContext authSubject jwtAuth => ?_⟩
  · cases hdecoded : jwt.state.decodeFromHeaders req.headers with
    | error err =>
      have hcall : stack.call req = _ := call_of_rejected hdecoded
      rw [hcall] at h
      rcases h.of_ret with ⟨rfl, rfl⟩
      exact .inl rfl
    | ok auth =>
      have hcall : stack.call req = guarded.call (req.withAuth auth) := call_of_decoded hdecoded
      rw [hcall] at h
      have hguarded := guarded_tenant h
      rw [tenantSubject_withAuth] at hguarded
      rcases decodeFromHeaders_eq_ok.mp hdecoded with
        ⟨token, claims, tenant, principal, htoken, hclaims, ht, hp, rfl⟩
      -- from here on the subject is that of the token, and the slots are not looked at
      by_cases hgranted : Granted (some (question ⟨tenant, principal⟩)) tr
      · exact .inr ⟨token, claims, tenant, principal, htoken, hclaims, ht, hp, hgranted,
          hguarded.once hgranted⟩
      · exact .inl (hguarded.otherwise hgranted)
  · -- the headers are the same, and the slots are overwritten
    cases hdecoded : jwt.state.decodeFromHeaders req.headers with
    | error err =>
      have hcall : stack.call req = _ := call_of_rejected hdecoded
      rw [hcall]
      exact call_of_rejected hdecoded
    | ok auth =>
      have hcall : stack.call req = _ := call_of_decoded hdecoded
      rw [hcall]
      exact call_of_decoded hdecoded

end

namespace Sample

open RsTenant.Sample

/-- A request that carries the clerk's context, and somebody else's subject. -/
def signedIn : Request DefaultClaims Unit where
  headers := []
  extensions := ⟨some ⟨subject⟩, some ⟨⟨['x'], by decide⟩, principal⟩, none, none, none⟩
  rest := ()

def layer : TenantAuthorizeLayer EngineSig := .new (Engine.build default) read

def jwt : JwtAuthLayer DefaultClaims := ⟨⟨fun _ => none⟩⟩

/-- The clerk's grants are in the cache. -/
def asked : List (Event EngineSig) :=
  [⟨.read (.tenantStatus tenant), .ok .active⟩, ⟨.read (.membershipStatus subject), .ok .active⟩,
    ⟨.getEffectiveGrants tenant principal (default : EngineConfig).signature,
      some [⟨clerk, read, .tenant⟩]⟩]

theorem asked_path : Prog.Path (layer.canTenant ⟨subject, read⟩) asked (.ret (.ok .allow)) :=
  .step (S := EngineSig) _ (.step (S := EngineSig) _ (.step (S := EngineSig) _ (.refl _)))

end Sample

/-- The clerk's request gets through to the inner service, and is turned away
where a token is asked for. -/
theorem complete_mediation_sample :
    let answer : Except Empty Response := .ok ⟨204, ""⟩
    innerCalls (Sample.asked.map Event.left ++ [polled (.ok ()), answered Sample.signedIn answer])
      (Prog.ret (S := EngineSig.sum (InnerSig _ Empty)) answer) = [Sample.signedIn] ∧
    (Sample.jwt.layer (Sample.layer.layer (handler EngineSig _ Empty))).call Sample.signedIn =
      .ret (.ok ⟨401, "missing authorization header"⟩) := by
  intro answer
  have h := complete_mediation (ε := Empty) Sample.layer Sample.jwt Sample.signedIn
  have hserved := (h.2.1 _ answer).mpr (.served answer rfl Sample.asked_path)
  refine ⟨(h.1 _ _ hserved).1 ?_, h.2.2.2.1 .missingAuthorization rfl⟩
  exact ⟨_, _, rfl, Sample.asked_path, List.prefix_append _ _, by simp⟩

end RsTenant.Axum
