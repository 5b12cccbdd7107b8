import RsTenant.Mediation

/-! # Stacks of layers

A service behind a layer is a service again, so layers can be stacked: one that
authenticates all requests to a server, one for a group of routes, one for a
route. `stack_forward` shows that a stack is one check in front of the innermost
service. A request gets through to it if each layer in turn lets it through, and
else is answered by the first layer that does not (`stack_mediation`). Whom the
called service sees is whom the layers have asked about (`extracted_is_authorized`).
All layers of a stack that read tokens go by one type of claims.
-/

namespace RsTenant.Axum

open Interact

/-- A layer of any kind. -/
inductive Layer (E : Sig) (C : Type) where
  | jwt (layer : JwtAuthLayer C)
  | tenant (layer : TenantAuthorizeLayer E)
  | platform (layer : PlatformAuthorizeLayer E)

section

variable {E T : Sig} {C X ε : Type} [JwtClaims C]

def Layer.wrap (inner : Service (E.sum T) (Request C X) ε) :
    Layer E C → Service (E.sum T) (Request C X) ε
  | .jwt layer => layer.layer inner
  | .tenant layer => layer.layer inner
  | .platform layer => layer.layer inner

/-- The service behind the layers, the outermost of which comes first. -/
def stack (layers : List (Layer E C)) (inner : Service (E.sum T) (Request C X) ε) :
    Service (E.sum T) (Request C X) ε :=
  layers.foldr (fun layer service => layer.wrap service) inner

/-! ## What a layer does by itself -/

omit [JwtClaims C] in
/-- What an authorization layer asks its engine. -/
def Layer.question (req : Request C X) :
    Layer E C → Option (Prog E (Except Error AccessDecision))
  | .jwt _ => none
  | .tenant layer => req.tenantSubject.map fun subject =>
    layer.canTenant ⟨subject, layer.permission⟩
  | .platform layer => req.platformSubject.map fun subject =>
    layer.canPlatform ⟨subject, layer.permission⟩

omit [JwtClaims C] in
/-- What an authorization layer says when there is no subject. -/
def Layer.missing : Layer E C → Option String
  | .jwt _ => none
  | .tenant _ => some "missing auth context"
  | .platform _ => some "missing platform auth context"

/-- Let the request through when the engine has allowed it. -/
def verdict {Q : Type} (req : Q) : Except Error AccessDecision → Except Response Q
  | .ok .allow => .ok req
  | .ok .deny => .error (intoResponse .forbidden "forbidden")
  | .error _ => .error (intoResponse .internalServerError "auth error")

def judge {Q : Type} (question : Option (Prog E (Except Error AccessDecision))) (missing : String)
    (req : Q) : Prog E (Except Response Q) :=
  match question with
  | none => return .error (intoResponse .unauthorized missing)
  | some ask => do
    let decision ← ask
    return verdict req decision

/-- The request with the subject of its token. -/
def signIn (req : Request C X) : Except AuthError (JwtAuth C) → Except Response (Request C X)
  | .ok auth => .ok (req.withAuth auth)
  | .error err => .error (AuthRejection.ofError err).intoResponse

/-- The request as it is passed on, or the answer to it. -/
def Layer.check (req : Request C X) (layer : Layer E C) :
    Prog E (Except Response (Request C X)) :=
  match layer with
  | .jwt authenticate => return signIn req (authenticate.state.decodeFromHeaders req.headers)
  | .tenant _ => judge (layer.question req) "missing auth context" req
  | .platform _ => judge (layer.question req) "missing platform auth context" req

/-- All checks, one after another. -/
def screen : List (Layer E C) → Request C X → Fallible E Response (Request C X)
  | [], req => return req
  | layer :: layers, req => do
    let req ← ExceptT.mk (layer.check req)
    screen layers req

/-- What becomes of a request that has been checked. -/
def proceed {S : Sig} {Q : Type} (inner : Service S Q ε) :
    Except Response Q → Prog S (Except ε Response)
  | .ok req => inner.forward req
  | .error response => return .ok response

omit [JwtClaims C] in
theorem authorize_eq {σ Q : Type} (subject : Option σ) (missing : String)
    (can : σ → Prog E (Except Error AccessDecision)) (inner : Service (E.sum T) Q ε) (req : Q) :
    authorize subject missing (fun s => (can s).left) inner req =
      (judge (subject.map can) missing req).left >>= proceed inner := by
  cases subject with
  | none => rfl
  | some s =>
    have hrespond : respond inner req = fun decision => proceed inner (verdict req decision) := by
      funext decision
      rcases decision with err | _ | _ <;> rfl
    show (can s).left >>= respond inner req =
      (can s >>= fun decision => .ret (verdict req decision)).left >>= proceed inner
    rw [Prog.left_bind, bind_assoc, hrespond]
    rfl

/-- A layer is its check in front of the service that it wraps. -/
theorem wrap_forward (layer : Layer E C) (inner : Service (E.sum T) (Request C X) ε)
    (req : Request C X) :
    (layer.wrap inner).forward req = (layer.check req).left >>= proceed inner := by
  cases layer with
  | jwt jwt =>
    show (match jwt.state.decodeFromHeaders req.headers with
      | .ok auth => inner.forward (req.withAuth auth)
      | .error err => return .ok (AuthRejection.ofError err).intoResponse) =
        proceed inner (signIn req (jwt.state.decodeFromHeaders req.headers))
    cases jwt.state.decodeFromHeaders req.headers <;> rfl
  | tenant layer => exact authorize_eq _ _ _ inner req
  | platform layer => exact authorize_eq _ _ _ inner req

/-- So is a stack. -/
theorem stack_forward (layers : List (Layer E C)) (inner : Service (E.sum T) (Request C X) ε)
    (req : Request C X) :
    (stack layers inner).forward req = (screen layers req).run.left >>= proceed inner := by
  induction layers generalizing req with
  | nil => rfl
  | cons layer layers ih =>
    have hproceed : proceed (stack layers inner) = fun checked =>
        (Fallible.andThen (screen layers) checked).left >>= proceed inner := by
      funext checked
      cases checked with
      | ok req => exact ih req
      | error response => rfl
    show (layer.wrap (stack layers inner)).forward req = _
    rw [wrap_forward, hproceed, screen, Fallible.run_bind, Prog.left_bind, bind_assoc]
    rfl

/-! ## What it takes to get through -/

/-- What the layer makes of the request, and what its engine has done for it. -/
inductive Layer.Checks (layer : Layer E C) (req : Request C X) :
    List (Event E) → Except Response (Request C X) → Prop
  | authenticated {jwt : JwtAuthLayer C} {auth : JwtAuth C} (hlayer : layer = .jwt jwt)
      (hauth : jwt.state.decodeFromHeaders req.headers = .ok auth) :
      Checks layer req [] (.ok (req.withAuth auth))
  | unauthenticated {jwt : JwtAuthLayer C} {err : AuthError} (hlayer : layer = .jwt jwt)
      (hauth : jwt.state.decodeFromHeaders req.headers = .error err) :
      Checks layer req [] (.error (intoResponse .unauthorized err.display))
  | unauthorized {missing : String} (hmissing : layer.missing = some missing)
      (hquestion : layer.question req = none) :
      Checks layer req [] (.error (intoResponse .unauthorized missing))
  | allowed {ask : Prog E (Except Error AccessDecision)} {asked : List (Event E)}
      (hquestion : layer.question req = some ask)
      (hask : Prog.Path ask asked (.ret (.ok .allow))) : Checks layer req asked (.ok req)
  | forbidden {ask : Prog E (Except Error AccessDecision)} {asked : List (Event E)}
      (hquestion : layer.question req = some ask)
      (hask : Prog.Path ask asked (.ret (.ok .deny))) :
      Checks layer req asked (.error (intoResponse .forbidden "forbidden"))
  | failed {ask : Prog E (Except Error AccessDecision)} {asked : List (Event E)} {err : Error}
      (hquestion : layer.question req = some ask)
      (hask : Prog.Path ask asked (.ret (.error err))) :
      Checks layer req asked (.error (intoResponse .internalServerError "auth error"))

/-- What a stack makes of it: each layer gets what the one before has passed on,
and the first one that refuses it answers. -/
inductive Screened : List (Layer E C) → Request C X → List (Event E) →
    Except Response (Request C X) → Prop
  | through (req : Request C X) : Screened [] req [] (.ok req)
  | refused {layer : Layer E C} {req : Request C X} {asked : List (Event E)} {response : Response}
      (h : layer.Checks req asked (.error response)) (layers : List (Layer E C)) :
      Screened (layer :: layers) req asked (.error response)
  | passed {layer : Layer E C} {layers : List (Layer E C)} {req req' : Request C X}
      {asked asked' : List (Event E)} {out : Except Response (Request C X)}
      (h : layer.Checks req asked (.ok req')) (hrest : Screened layers req' asked' out) :
      Screened (layer :: layers) req (asked ++ asked') out

/-- The ways in which a request to a stack ends. -/
inductive Stacked (layers : List (Layer E C)) (req : Request C X) :
    List (Event (E.sum (InnerSig (Request C X) ε))) → Except ε Response → Prop
  | refused {asked : List (Event E)} {response : Response}
      (h : Screened layers req asked (.error response)) :
      Stacked layers req (asked.map Event.left) (.ok response)
  | notReady {asked : List (Event E)} {req' : Request C X}
      (h : Screened layers req asked (.ok req')) (e : ε) :
      Stacked layers req (asked.map Event.left ++ [polled (.error e)]) (.error e)
  | served {asked : List (Event E)} {req' : Request C X}
      (h : Screened layers req asked (.ok req')) (res : Except ε Response) :
      Stacked layers req (asked.map Event.left ++ [polled (.ok ()), answered req' res]) res

/-- What a layer that asks its engine makes of the request. -/
theorem checks_judge {layer : Layer E C} {missing : String}
    (hmissing : layer.missing = some missing) {req : Request C X} {asked : List (Event E)}
    {out : Except Response (Request C X)}
    (h : Prog.Path (judge (layer.question req) missing req) asked (.ret out)) :
    layer.Checks req asked out := by
  cases hquestion : layer.question req with
  | none =>
    rw [hquestion] at h
    rcases h.of_ret with ⟨rfl, hret⟩
    cases hret
    exact .unauthorized hmissing hquestion
  | some ask =>
    rw [hquestion] at h
    obtain ⟨asked₁, asked₂, decision, rfl, hask, hrest⟩ := Prog.Path.of_bind h
    rcases hrest.of_ret with ⟨rfl, hret⟩
    cases hret
    rw [List.append_nil]
    rcases decision with err | _ | _
    · exact .failed hquestion hask
    · exact .allowed hquestion hask
    · exact .forbidden hquestion hask

omit [JwtClaims C] in
theorem judge_path {layer : Layer E C} {missing : String} {req : Request C X}
    {asked : List (Event E)} {ask : Prog E (Except Error AccessDecision)}
    {decision : Except Error AccessDecision} (hquestion : layer.question req = some ask)
    (hask : Prog.Path ask asked (.ret decision)) :
    Prog.Path (judge (layer.question req) missing req) asked (.ret (verdict req decision)) := by
  rw [hquestion]
  exact List.append_nil asked ▸ hask.bind (.refl _)

/-- The paths of one layer's check are the checks. -/
theorem check_path {layer : Layer E C} {req : Request C X} {asked : List (Event E)}
    {out : Except Response (Request C X)} :
    Prog.Path (layer.check req) asked (.ret out) ↔ layer.Checks req asked out := by
  constructor
  · intro h
    cases layer with
    | jwt jwt =>
      -- the JWT layer asks no engine
      rcases h.of_ret with ⟨rfl, hret⟩
      cases hauth : jwt.state.decodeFromHeaders req.headers with
      | ok auth =>
        rw [hauth] at hret
        cases hret
        exact .authenticated rfl hauth
      | error err =>
        rw [hauth] at hret
        cases hret
        exact .unauthenticated rfl hauth
    | tenant layer => exact checks_judge rfl h
    | platform layer => exact checks_judge rfl h
  · intro h
    -- the two authorization layers answer alike once they have asked
    have hjudge : ∀ {ask decision}, layer.question req = some ask →
        Prog.Path ask asked (.ret decision) →
        Prog.Path (layer.check req) asked (.ret (verdict req decision)) := by
      intro ask decision hquestion hask
      cases layer with
      | jwt jwt => cases hquestion
      | tenant layer => exact judge_path hquestion hask
      | platform layer => exact judge_path hquestion hask
    cases h with
    | authenticated hlayer hauth =>
      subst hlayer
      show Prog.Path (.ret (signIn req _)) _ _
      rw [hauth]
      exact .refl _
    | unauthenticated hlayer hauth =>
      subst hlayer
      show Prog.Path (.ret (signIn req _)) _ _
      rw [hauth]
      exact .refl _
    | unauthorized hmissing hquestion =>
      cases layer with
      | jwt jwt => cases hmissing
      | tenant layer =>
        cases hmissing
        show Prog.Path (judge _ _ _) _ _
        rw [hquestion]
        exact .refl _
      | platform layer =>
        cases hmissing
        show Prog.Path (judge _ _ _) _ _
        rw [hquestion]
        exact .refl _
    | allowed hquestion hask => exact hjudge hquestion hask
    | forbidden hquestion hask => exact hjudge hquestion hask
    | failed hquestion hask => exact hjudge hquestion hask

/-- The paths through all layers' checks are the screenings. -/
theorem screen_path {layers : List (Layer E C)} {req : Request C X} {asked : List (Event E)}
    {out : Except Response (Request C X)} :
    Prog.Path (screen layers req).run asked (.ret out) ↔ Screened layers req asked out := by
  constructor
  · intro h
    -- each layer gets the request that the one before it has passed on
    induction layers generalizing req asked with
    | nil =>
      rcases h.of_ret with ⟨rfl, hret⟩
      cases hret
      exact .through req
    | cons layer layers ih =>
      rw [screen, Fallible.run_bind] at h
      obtain ⟨asked₁, asked₂, checked, rfl, hcheck, hrest⟩ := Prog.Path.of_bind h
      have hchecks := check_path.mp hcheck
      cases checked with
      | ok req' => exact .passed hchecks (ih hrest)
      | error response =>
        rcases hrest.of_ret with ⟨rfl, hret⟩
        cases hret
        rw [List.append_nil]
        exact .refused hchecks layers
  · intro h
    induction h with
    | through req => exact .refl _
    | refused hchecks layers =>
      rw [screen, Fallible.run_bind]
      have hrefused := (check_path.mpr hchecks).bind
        (f := Fallible.andThen fun req => screen layers req) (.refl _)
      rwa [List.append_nil] at hrefused
    | passed hchecks _ ih =>
      rw [screen, Fallible.run_bind]
      exact (check_path.mpr hchecks).bind ih

/-! ## What reaches the layers inside -/

omit [JwtClaims C] in
theorem withAuth_withAuth (req : Request C X) (auth auth' : JwtAuth C) :
    (req.withAuth auth).withAuth auth' = req.withAuth auth' := rfl

/-- A request is passed on as it is, or as the subject of its token. -/
theorem Layer.Checks.passes {layer : Layer E C} {req req' : Request C X} {asked : List (Event E)}
    (h : layer.Checks req asked (.ok req')) :
    ((∀ jwt, layer ≠ .jwt jwt) ∧ req' = req) ∨
      ∃ jwt auth, layer = .jwt jwt ∧ jwt.state.decodeFromHeaders req.headers = .ok auth ∧
        req' = req.withAuth auth := by
  cases h with
  | authenticated hlayer hauth => exact .inr ⟨_, _, hlayer, hauth, rfl⟩
  | allowed hquestion hask =>
    refine .inl ⟨?_, rfl⟩
    rintro jwt rfl
    cases hquestion

/-- A tenant layer that lets a request through has asked for its subject. -/
theorem Layer.Checks.allows {layer : TenantAuthorizeLayer E} {req req' : Request C X}
    {asked : List (Event E)} (h : (Layer.tenant layer).Checks req asked (.ok req'))
    {subject : AuthSubject} (hsubject : req.tenantSubject = some subject) :
    Prog.Path (layer.canTenant ⟨subject, layer.permission⟩) asked (.ret (.ok .allow)) := by
  cases h with
  | authenticated hlayer hauth => cases hlayer
  | allowed hquestion hask =>
    have hcan : req.tenantSubject.map (fun subject => layer.canTenant ⟨subject, layer.permission⟩) =
        some _ := hquestion
    rw [hsubject] at hcan
    have hask' : layer.canTenant ⟨subject, layer.permission⟩ = _ := Option.some.inj hcan
    rw [hask']
    exact hask

/-- Behind a `JwtAuthLayer`, a request has the subject of its token; without one,
nothing of it has changed. -/
theorem Screened.passes {layers : List (Layer E C)} {req req' : Request C X}
    {asked : List (Event E)} (h : Screened layers req asked (.ok req')) :
    ((∀ jwt, .jwt jwt ∉ layers) ∧ req' = req) ∨
      ∃ outer jwt inner auth, layers = outer ++ .jwt jwt :: inner ∧
        (∀ jwt', .jwt jwt' ∉ inner) ∧ jwt.state.decodeFromHeaders req.headers = .ok auth ∧
        req' = req.withAuth auth := by
  generalize hout : (Except.ok req' : Except Response (Request C X)) = out at h
  induction h with
  | through req =>
    cases hout
    exact .inl ⟨fun jwt => List.not_mem_nil, rfl⟩
  | refused => cases hout
  | @passed layer layers req req₁ asked asked' out hchecks hrest ih =>
    -- the headers that the layers inside see are the same
    have hheaders : req₁.headers = req.headers := by
      rcases hchecks.passes with ⟨-, rfl⟩ | ⟨jwt, auth, -, -, rfl⟩
      · rfl
      · rfl
    rcases ih hout with ⟨hnone, hsame⟩ | ⟨outer, jwt, inner, auth, hlayers, hnone, hauth, hreq⟩
    · rcases hchecks.passes with ⟨hkind, rfl⟩ | ⟨jwt, auth, rfl, hauth, rfl⟩
      · refine .inl ⟨fun jwt hmem => ?_, hsame⟩
        rcases List.mem_cons.mp hmem with hlayer | hmem
        · exact hkind jwt hlayer.symm
        · exact hnone jwt hmem
      · exact .inr ⟨[], jwt, layers, auth, rfl, hnone, hauth, hsame⟩
    · refine .inr ⟨layer :: outer, jwt, inner, auth, ?_, hnone, hheaders ▸ hauth, ?_⟩
      · rw [hlayers, List.cons_append]
      · rcases hchecks.passes with ⟨-, rfl⟩ | ⟨jwt', auth', -, -, rfl⟩
        · exact hreq
        · exact hreq.trans (withAuth_withAuth req auth' auth)

/-- A request that gets through two stacks has got through the outer one first. -/
theorem Screened.split {outer inner : List (Layer E C)} {req req' : Request C X}
    {asked : List (Event E)} (h : Screened (outer ++ inner) req asked (.ok req')) :
    ∃ asked₁ asked₂ req₁, asked = asked₁ ++ asked₂ ∧ Screened outer req asked₁ (.ok req₁) ∧
      Screened inner req₁ asked₂ (.ok req') := by
  induction outer generalizing req asked with
  | nil => exact ⟨[], asked, req, rfl, .through req, h⟩
  | cons layer outer ih =>
    cases h with
    | passed hchecks hrest =>
      obtain ⟨asked₁, asked₂, req₁, rfl, houter, hinner⟩ := ih hrest
      exact ⟨_, asked₂, req₁, (List.append_assoc _ _ _).symm, .passed hchecks houter, hinner⟩

/-- What a request is like that has got through a `JwtAuthLayer`, the last one. -/
theorem Screened.authenticated {outer inner : List (Layer E C)} {jwt : JwtAuthLayer C}
    {req req' : Request C X} {asked : List (Event E)}
    (h : Screened (outer ++ .jwt jwt :: inner) req asked (.ok req'))
    (hnone : ∀ jwt', .jwt jwt' ∉ inner) :
    ∃ asked₁ asked₂ req₁ auth, asked = asked₁ ++ asked₂ ∧ Screened outer req asked₁ (.ok req₁) ∧
      req₁.headers = req.headers ∧ jwt.state.decodeFromHeaders req.headers = .ok auth ∧
      req' = req₁.withAuth auth ∧ Screened inner (req₁.withAuth auth) asked₂ (.ok req') := by
  obtain ⟨asked₁, asked₂, req₁, rfl, houter, hinner⟩ := h.split
  -- the headers have not changed on the way
  have hheaders : req₁.headers = req.headers := by
    rcases houter.passes with ⟨-, rfl⟩ | ⟨_, _, _, _, -, -, -, rfl⟩
    · rfl
    · rfl
  cases hinner with
  | @passed _ _ _ req₂ asked₃ asked₄ _ hchecks hrest =>
    have hnothing : asked₃ = [] := by
      cases hchecks with
      | authenticated => rfl
      | allowed hquestion => cases hquestion
    subst hnothing
    rcases hchecks.passes with ⟨hkind, -⟩ | ⟨jwt', auth, hlayer, hauth, rfl⟩
    · exact absurd rfl (hkind jwt)
    · cases hlayer
      refine ⟨asked₁, asked₄, req₁, auth, rfl, houter, hheaders, hheaders ▸ hauth, ?_, hrest⟩
      rcases hrest.passes with ⟨-, hsame⟩ | ⟨outer', jwt', inner', _, hlayers, -, -, -⟩
      · exact hsame
      · refine absurd ?_ (hnone jwt')
        rw [hlayers]
        exact List.mem_append_right _ List.mem_cons_self

/-- Each tenant layer behind the last `JwtAuthLayer` has allowed the subject that
the request has there. -/
theorem Screened.allowed {layers : List (Layer E C)} {req req' : Request C X}
    {asked : List (Event E)} (h : Screened layers req asked (.ok req'))
    (hnone : ∀ jwt, .jwt jwt ∉ layers) {subject : AuthSubject}
    (hsubject : req.tenantSubject = some subject) {layer : TenantAuthorizeLayer E}
    (hlayer : .tenant layer ∈ layers) :
    ∃ allowed, Prog.Path (layer.canTenant ⟨subject, layer.permission⟩) allowed
      (.ret (.ok .allow)) ∧ allowed <:+: asked := by
  induction layers generalizing req asked with
  | nil => exact absurd hlayer List.not_mem_nil
  | cons head layers ih =>
    cases h with
    | @passed _ _ _ req₁ asked₁ asked₂ _ hchecks hrest =>
      -- only a `JwtAuthLayer` changes the request, and there is none
      have hsame : req₁ = req := by
        rcases hchecks.passes with ⟨-, rfl⟩ | ⟨jwt, auth, rfl, -, -⟩
        · rfl
        · exact absurd List.mem_cons_self (hnone jwt)
      subst hsame
      rcases List.mem_cons.mp hlayer with rfl | hmem
      · exact ⟨asked₁, hchecks.allows hsubject, (List.prefix_append _ _).isInfix⟩
      · obtain ⟨allowed, hpath, hpart⟩ := ih hrest
          (fun jwt hjwt => hnone jwt (List.mem_cons_of_mem _ hjwt)) hsubject hmem
        exact ⟨allowed, hpath, hpart.trans (List.suffix_append _ _).isInfix⟩

/-! ## Main result -/

/-- Each of the ends can be reached. -/
theorem Stacked.path {layers : List (Layer E C)} {req : Request C X}
    {tr : List (Event (E.sum (InnerSig (Request C X) ε)))} {res : Except ε Response}
    (h : Stacked layers req tr res) :
    Prog.Path ((stack layers (handler E (Request C X) ε)).forward req) tr (.ret res) := by
  rw [stack_forward]
  cases h with
  | refused h =>
    have hrefused := (screen_path.mpr h).left (T := InnerSig (Request C X) ε) |>.bind
      (f := proceed (handler E (Request C X) ε)) (.refl _)
    rwa [List.append_nil] at hrefused
  | notReady h e => exact (screen_path.mpr h).left.bind (.step _ (.refl _))
  | served h res => exact (screen_path.mpr h).left.bind (.step _ (.step _ (.refl _)))

/-- While it has not returned, or when it has. -/
theorem stacked_of_path {layers : List (Layer E C)} {req : Request C X}
    {tr : List (Event (E.sum (InnerSig (Request C X) ε)))}
    {q : Prog (E.sum (InnerSig (Request C X) ε)) (Except ε Response)}
    (h : Prog.Path ((stack layers (handler E (Request C X) ε)).forward req) tr q) :
    (innerCalls tr q = [] ∨ ∃ asked req', Screened layers req asked (.ok req') ∧
      asked.map Event.left ++ [polled (.ok ())] <+: tr ∧ innerCalls tr q = [req']) ∧
    ∀ res, q = .ret res → Stacked layers req tr res := by
  rw [stack_forward] at h
  rcases Prog.Path.bind_cases h with ⟨op, k, hchecking, rfl⟩ | ⟨tr₁, tr₂, out, rfl, hchecked, hrest⟩
  · exact ⟨.inl (innerCalls_asking hchecking _).1, fun _ => nofun⟩
  -- every layer has been asked: how it goes on depends on what they let through
  · obtain ⟨asked, q', hscreen, rfl, hout⟩ := hchecked.of_left
    cases q' with
    | call op k => cases hout
    | ret out' =>
      cases hout
      have hscreened := screen_path.mp hscreen
      cases out with
      | error response =>
        rcases hrest.of_ret with ⟨rfl, rfl⟩
        refine ⟨.inl (innerCalls_left_append asked [] _), fun res hres => ?_⟩
        cases hres
        rw [List.append_nil]
        exact .refused hscreened
      | ok req' =>
        rw [innerCalls_left_append]
        rcases forward_path hrest with ⟨rfl, hnone, hq⟩ | ⟨e, rfl, rfl⟩ | ⟨rfl, hone, hq⟩ |
          ⟨res', rfl, rfl⟩
        · exact ⟨.inl hnone, fun res hres => absurd hres (hq res)⟩
        · refine ⟨.inl rfl, fun res hres => ?_⟩
          cases hres
          exact .notReady hscreened e
        · exact ⟨.inr ⟨asked, req', hscreened, List.prefix_rfl, hone⟩,
            fun res hres => absurd hres (hq res)⟩
        · refine ⟨.inr ⟨asked, req', hscreened, ?_, rfl⟩, fun res hres => ?_⟩
          · exact (List.prefix_append_right_inj _).mpr (List.prefix_append [_] [_])
          · cases hres
            exact .served hscreened _

/-- Whatever the engines' operations are answered and whatever the innermost
service does, behind any stack of layers: it is called at most once, and only
when every layer has let the request through, in turn. A finished request has
come to one of the ends of `Stacked`; when it is refused, the first layer to do
so answers, and no layer inside that one has asked anything. And what reaches
the service is the request as it was, or, behind a `JwtAuthLayer`, the request
with the subject that the innermost such layer has read from its token. -/
theorem stack_mediation (layers : List (Layer E C)) (req : Request C X) :
    (∀ (tr : List (Event (E.sum (InnerSig (Request C X) ε)))) q,
      Prog.Path ((stack layers (handler E (Request C X) ε)).forward req) tr q →
        innerCalls tr q = [] ∨ ∃ asked req', Screened layers req asked (.ok req') ∧
          asked.map Event.left ++ [polled (.ok ())] <+: tr ∧ innerCalls tr q = [req']) ∧
    (∀ tr res, Prog.Path ((stack layers (handler E (Request C X) ε)).forward req) tr (.ret res) ↔
      Stacked layers req tr res) ∧
    ∀ (asked : List (Event E)) req', Screened layers req asked (.ok req') →
      ((∀ jwt, .jwt jwt ∉ layers) ∧ req' = req) ∨
        ∃ outer jwt inner auth, layers = outer ++ .jwt jwt :: inner ∧
          (∀ jwt', .jwt jwt' ∉ inner) ∧ jwt.state.decodeFromHeaders req.headers = .ok auth ∧
          req' = req.withAuth auth :=
  ⟨fun _ _ h => (stacked_of_path h).1, fun _ _ => ⟨fun h => (stacked_of_path h).2 _ rfl,
    Stacked.path⟩, fun _ _ h => h.passes⟩

/-- In a stack whose `JwtAuthLayer`s go by one type of claims, what is called
behind such a layer has the subject among its extensions that the innermost of
them has read from the token. An extractor for these claims finds what that layer
has read, whatever key it would go by itself and whatever the slots of the layers
held before; and it is for this subject that every tenant layer further in has
allowed the request. -/
theorem extracted_is_authorized (outer inner : List (Layer E C)) (jwt : JwtAuthLayer C)
    (hnone : ∀ jwt', .jwt jwt' ∉ inner) (req : Request C X)
    (tr : List (Event (E.sum (InnerSig (Request C X) ε))))
    (q : Prog (E.sum (InnerSig (Request C X) ε)) (Except ε Response))
    (hpath : Prog.Path
      ((stack (outer ++ .jwt jwt :: inner) (handler E (Request C X) ε)).forward req) tr q)
    (req' : Request C X) (hcalled : req' ∈ innerCalls tr q) :
    ∃ auth, jwt.state.decodeFromHeaders req.headers = .ok auth ∧
      req'.extensions.authSubject = some auth.context.subject ∧
      req'.extensions.authContext = some auth.context ∧
      (∀ state : JwtAuthState C, JwtAuth.fromRequestParts state req' = .ok (auth, req')) ∧
      ∀ layer, .tenant layer ∈ inner → ∃ allowed,
        Prog.Path (layer.canTenant ⟨auth.context.subject, layer.permission⟩) allowed
          (.ret (.ok .allow)) ∧ allowed.map Event.left <:+: tr := by
  rcases (stacked_of_path hpath).1 with hnil | ⟨asked, req₁, hscreened, hasked, hcalls⟩
  · rw [hnil] at hcalled
    exact absurd hcalled List.not_mem_nil
  · rw [hcalls, List.mem_singleton] at hcalled
    subst hcalled
    obtain ⟨asked₁, asked₂, req₁, auth, rfl, -, -, hauth, hsame, hinner⟩ :=
      hscreened.authenticated hnone
    refine ⟨auth, hauth, ?_, ?_, fun state => ?_, fun layer hlayer => ?_⟩
    · rw [hsame]
      rfl
    · rw [hsame]
      rfl
    · rw [hsame]
      exact fromRequestParts_withAuth req₁ auth
    · obtain ⟨allowed, hallowed, hpart⟩ :=
        hinner.allowed hnone (tenantSubject_withAuth req₁ auth) hlayer
      refine ⟨allowed, hallowed, ?_⟩
      have hall : allowed <:+: asked₁ ++ asked₂ := hpart.trans (List.suffix_append _ _).isInfix
      exact ((hall.map Event.left).trans (List.prefix_append _ _).isInfix).trans hasked.isInfix

end

namespace Sample

/-- The same permission is asked for twice. -/
def twice : List (Layer EngineSig DefaultClaims) := [.tenant layer, .tenant layer]

theorem screened_twice : Screened twice signedIn (asked ++ asked) (.ok signedIn) := by
  have hallowed : (Layer.tenant layer).Checks signedIn asked (.ok signedIn) :=
    .allowed rfl asked_path
  exact .passed hallowed (List.append_nil asked ▸ .passed hallowed (.through _))

end Sample

/-- The clerk gets through both layers, as before, and is turned away where a
token is asked for inside. -/
theorem stack_mediation_sample :
    let answer : Except Empty Response := .ok ⟨204, ""⟩
    (∃ asked req', Screened Sample.twice Sample.signedIn asked (.ok req') ∧
      asked.map Event.left ++ [polled (.ok ())] <+:
        (Sample.asked ++ Sample.asked).map Event.left ++
          [polled (.ok ()), answered Sample.signedIn answer] ∧
      [Sample.signedIn] = [req'] ∧ req' = Sample.signedIn) ∧
    Prog.Path ((stack [.tenant Sample.layer, .jwt Sample.jwt]
        (handler EngineSig _ Empty)).forward Sample.signedIn)
      (Sample.asked.map Event.left)
      (.ret (.ok (intoResponse .unauthorized "missing authorization header"))) := by
  intro answer
  have htwice := stack_mediation (ε := Empty) Sample.twice Sample.signedIn
  have hmixed := stack_mediation (ε := Empty) [.tenant Sample.layer, .jwt Sample.jwt]
    Sample.signedIn
  constructor
  · have hpath := (htwice.2.1 _ answer).mpr (.served Sample.screened_twice answer)
    rcases htwice.1 _ _ hpath with hnone | ⟨asked, req', hscreened, hasked, hcalls⟩
    · cases hnone
    · refine ⟨asked, req', hscreened, hasked, hcalls, ?_⟩
      rcases htwice.2.2 _ _ hscreened with ⟨-, hreq⟩ | ⟨outer, jwt, inner, auth, hlayers, -, -, -⟩
      · exact hreq
      · have hmem : Layer.jwt jwt ∈ Sample.twice := by
          rw [hlayers]
          exact List.mem_append_right _ List.mem_cons_self
        rcases List.mem_cons.mp hmem with hlayer | hmem
        · cases hlayer
        · cases List.mem_singleton.mp hmem
  · have hrefused : (Layer.jwt (E := EngineSig) Sample.jwt).Checks Sample.signedIn []
        (.error (intoResponse .unauthorized AuthError.missingAuthorization.display)) :=
      .unauthenticated rfl rfl
    rw [hmixed.2.1]
    exact .refused (List.append_nil Sample.asked ▸
      .passed (.allowed rfl Sample.asked_path) (.refused hrefused []))

namespace Sample

open RsTenant.Sample

/-- Only the token `x` is valid, and it is the clerk's. -/
def office : JwtAuthLayer DefaultClaims :=
  ⟨⟨fun token => if token = ['x'] then some ⟨tenant.val, principal.val, none, none⟩ else none⟩⟩

theorem valid_stranger : IdValid ['x'] := by decide

def stranger : AuthSubject := ⟨⟨['x'], valid_stranger⟩, principal⟩

/-- A request with the clerk's token that claims to be somebody else's. -/
def disguised : Request DefaultClaims Unit where
  headers := [(authorization, "Bearer x".toList.map fun c => UInt8.ofNat c.toNat)]
  extensions := ⟨none, some stranger, some ⟨⟨stranger⟩, ⟨['x'], principal.val, none, none⟩⟩,
    none, none⟩
  rest := ()

def unmasked : Request DefaultClaims Unit :=
  disguised.withAuth ⟨⟨subject⟩, ⟨tenant.val, principal.val, none, none⟩⟩

theorem screened_disguised :
    Screened [.jwt office, .tenant layer] disguised asked (.ok unmasked) := by
  have hallowed : (Layer.tenant layer).Checks unmasked asked (.ok unmasked) :=
    .allowed rfl asked_path
  have hsigned : (Layer.jwt (E := EngineSig) office).Checks disguised [] (.ok unmasked) :=
    .authenticated rfl rfl
  have hscreened : Screened [.tenant layer] unmasked (asked ++ []) (.ok unmasked) :=
    .passed hallowed (.through _)
  rw [List.append_nil] at hscreened
  exact .passed hsigned hscreened

end Sample

/-- The disguise does not help, not even where only the context is extracted. -/
theorem extracted_is_authorized_sample :
    ∃ auth, Sample.office.state.decodeFromHeaders Sample.disguised.headers = .ok auth ∧
      Sample.unmasked.extensions.authSubject = some auth.context.subject ∧
      (∀ state, AuthContext.fromRequestParts state Sample.unmasked =
        .ok (auth.context, Sample.unmasked)) ∧
      ∃ allowed, Prog.Path (Sample.layer.canTenant ⟨auth.context.subject, Sample.layer.permission⟩)
        allowed (.ret (.ok .allow)) := by
  have hpath : Prog.Path ((stack [.jwt Sample.office, .tenant Sample.layer]
      (handler EngineSig _ Empty)).forward Sample.disguised) _ (.ret (.ok ⟨204, ""⟩)) :=
    Stacked.path (.served Sample.screened_disguised (.ok ⟨204, ""⟩))
  obtain ⟨auth, hauth, hsubject, -, hextracted, hallowed⟩ := extracted_is_authorized []
    [.tenant Sample.layer] Sample.office (fun jwt' hmem => by cases List.mem_singleton.mp hmem)
    Sample.disguised _ _ hpath Sample.unmasked List.mem_cons_self
  obtain ⟨allowed, hask, -⟩ := hallowed Sample.layer List.mem_cons_self
  exact ⟨auth, hauth, hsubject, fun state => fromRequestParts_context (hextracted state), allowed,
    hask⟩

end RsTenant.Axum
