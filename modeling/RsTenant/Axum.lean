import RsTenant.Engine
import RsTenant.PlatformEngine

/-! # The HTTP layers

Middleware for an HTTP server: `TenantAuthorizeLayer` and
`PlatformAuthorizeLayer` let a request through to the service they wrap only if
an engine allows it, for a subject that they find among the request's
extensions; `JwtAuthLayer` puts that subject there, from a bearer token.

A service is a pair of programs: becoming ready, and answering a request. The
innermost service is one whose programs are single operations, so that it may
answer anything; token decoding is a function of the token.
-/

namespace RsTenant.Axum

open Interact

/-! ## Requests and responses -/

/-- The number of an HTTP status. -/
abbrev StatusCode : Type := ℕ

namespace StatusCode

def unauthorized : StatusCode := 401
def forbidden : StatusCode := 403
def internalServerError : StatusCode := 500

end StatusCode

/-- What the layers say of a response: its status and its body. -/
structure Response where
  status : StatusCode
  body : String
deriving DecidableEq

/-- A status and a text as a response. -/
def intoResponse (status : StatusCode) (body : String) : Response := ⟨status, body⟩

/-- The bytes of a header. -/
abbrev HeaderValue : Type := List UInt8

/-- Headers in the order in which they came; names are in lower case. -/
abbrev HeaderMap : Type := List (Str × HeaderValue)

/-- The first value of the name. -/
def HeaderMap.get (headers : HeaderMap) (name : Str) : Option HeaderValue :=
  (headers.find? fun header => header.1 = name).map Prod.snd

/-- Visible ASCII, space and tab. -/
def isVisibleAscii (b : UInt8) : Bool := (32 ≤ b && b < 127) || b = 9

/-- A header as a text, if all its bytes are visible. -/
def HeaderValue.toStr (value : HeaderValue) : Option Str :=
  if value.all isVisibleAscii then some (value.map fun b => Char.ofNat b.toNat) else none

/-- Whom a tenant request is made for. -/
structure AuthContext where
  subject : AuthSubject
deriving DecidableEq

/-- The context of a principal in a tenant. -/
def AuthContext.new (tenant : TenantId) (principal : PrincipalId) : AuthContext :=
  ⟨⟨tenant, principal⟩⟩

/-- Whom a platform request is made for. -/
structure PlatformAuthContext where
  subject : PlatformSubject
deriving DecidableEq

/-- An authenticated subject and the claims it was read from. -/
structure JwtAuth (C : Type) where
  context : AuthContext
  claims : C

/-- The extensions of a request, one slot for each type that the layers know. All
layers and extractors that read tokens go by the one type `C` of claims. -/
structure Extensions (C : Type) where
  authContext : Option AuthContext
  authSubject : Option AuthSubject
  jwtAuth : Option (JwtAuth C)
  platformAuthContext : Option PlatformAuthContext
  platformSubject : Option PlatformSubject

/-- A request; `rest` is its method, address and body, and all extensions of
other types, `JwtAuth` of other claims among them. -/
structure Request (C X : Type) where
  headers : HeaderMap
  extensions : Extensions C
  rest : X

/-! ## Services -/

/-- A service over requests `Q` that may fail with `ε`. -/
structure Service (S : Sig) (Q ε : Type) where
  pollReady : Prog S (Except ε Unit)
  call : Q → Prog S (Except ε Response)

/-- Wait for the service to become ready, then call it. -/
def Service.forward {S : Sig} {Q ε : Type} (inner : Service S Q ε) (req : Q) :
    Prog S (Except ε Response) := do
  match ← inner.pollReady with
  | .ok () => inner.call req
  | .error e => return .error e

/-- What a middleware asks of the service that it does not know. -/
inductive InnerOp (Q : Type) where
  | pollReady
  | call (req : Q)

/-- Either step may fail with the error of the service. -/
abbrev InnerOp.Resp {Q : Type} (ε : Type) : InnerOp Q → Type
  | .pollReady => Except ε Unit
  | .call _ => Except ε Response

abbrev InnerSig (Q ε : Type) : Sig where
  Op := InnerOp Q
  Resp := InnerOp.Resp ε

/-- The innermost service, next to whatever the engine asks its surroundings. -/
def handler (E : Sig) (Q ε : Type) : Service (E.sum (InnerSig Q ε)) Q ε where
  pollReady := Prog.perform (S := E.sum (InnerSig Q ε)) (.inr .pollReady)
  call req := Prog.perform (S := E.sum (InnerSig Q ε)) (.inr (.call req))

/-! ## Authorization -/

/-- What becomes of a request when the engine has decided. -/
def respond {S : Sig} {Q ε : Type} (inner : Service S Q ε) (req : Q) :
    Except Error AccessDecision → Prog S (Except ε Response)
  | .ok .allow => inner.forward req
  | .ok .deny => return .ok (intoResponse .forbidden "forbidden")
  | .error _ => return .ok (intoResponse .internalServerError "auth error")

/-- A request that needs a permission: without a subject it is unauthorized,
and only if the engine allows it is the inner service asked. -/
def authorize {S : Sig} {σ Q ε : Type} (subject : Option σ) (missing : String)
    (can : σ → Prog S (Except Error AccessDecision)) (inner : Service S Q ε) (req : Q) :
    Prog S (Except ε Response) :=
  match subject with
  | none => return .ok (intoResponse .unauthorized missing)
  | some subject => do
    let decision ← can subject
    respond inner req decision

/-- The layer knows its engine by its answers to `can_tenant`. -/
structure TenantAuthorizeLayer (E : Sig) where
  canTenant : TenantAccessRequest → Prog E (Except Error AccessDecision)
  permission : Permission

/-- The layer over the tenant engine. -/
def TenantAuthorizeLayer.new (engine : Engine) (permission : Permission) :
    TenantAuthorizeLayer EngineSig where
  canTenant request := (engine.canTenant request).run
  permission := permission

/-- The same over the answers to `can_platform`. -/
structure PlatformAuthorizeLayer (E : Sig) where
  canPlatform : PlatformAccessRequest → Prog E (Except Error AccessDecision)
  permission : Permission

/-- The layer over the platform engine. -/
def PlatformAuthorizeLayer.new (engine : PlatformEngine) (permission : Permission) :
    PlatformAuthorizeLayer PlatformSig where
  canPlatform request := (engine.canPlatform request).run
  permission := permission

section

variable {E T : Sig} {C X ε : Type}

/-- An `AuthContext` goes before an `AuthSubject`. -/
def Request.tenantSubject (req : Request C X) : Option AuthSubject :=
  (req.extensions.authContext.map AuthContext.subject).or req.extensions.authSubject

/-- A `PlatformAuthContext` goes before a `PlatformSubject`. -/
def Request.platformSubject (req : Request C X) : Option PlatformSubject :=
  (req.extensions.platformAuthContext.map PlatformAuthContext.subject).or
    req.extensions.platformSubject

/-- The layer is always ready; the inner service is waited for in `call`. -/
def TenantAuthorizeLayer.layer (layer : TenantAuthorizeLayer E)
    (inner : Service (E.sum T) (Request C X) ε) : Service (E.sum T) (Request C X) ε where
  pollReady := return .ok ()
  call req :=
    authorize req.tenantSubject "missing auth context"
      (fun subject => (layer.canTenant ⟨subject, layer.permission⟩).left) inner req

/-- The same for the subject of a platform request. -/
def PlatformAuthorizeLayer.layer (layer : PlatformAuthorizeLayer E)
    (inner : Service (E.sum T) (Request C X) ε) : Service (E.sum T) (Request C X) ε where
  pollReady := return .ok ()
  call req :=
    authorize req.platformSubject "missing platform auth context"
      (fun subject => (layer.canPlatform ⟨subject, layer.permission⟩).left) inner req

end

/-! ## Bearer tokens -/

/-- Why a bearer token is refused. -/
inductive AuthError where
  | missingAuthorization
  | invalidAuthorization
  | invalidToken
  | invalidClaims (msg : String)
  | invalidId (msg : String)
deriving DecidableEq

/-- The text that the caller is told. -/
def AuthError.display : AuthError → String
  | .missingAuthorization => "missing authorization header"
  | .invalidAuthorization => "invalid authorization header"
  | .invalidToken => "invalid token"
  | .invalidClaims msg => s!"invalid claims: {msg}"
  | .invalidId msg => s!"invalid id: {msg}"

/-- A refusal with the status it is answered with. -/
structure AuthRejection where
  status : StatusCode
  message : String

/-- Every refusal of a token is a 401. -/
def AuthRejection.ofError (err : AuthError) : AuthRejection := ⟨.unauthorized, err.display⟩

/-- The message is the body. -/
def AuthRejection.intoResponse (rejection : AuthRejection) : Response :=
  Axum.intoResponse rejection.status rejection.message

/-- The claims of a token that say who it is for. -/
class JwtClaims (C : Type) where
  tenantId : C → Str
  principalId : C → Str

/-- The claims for callers that have no others. -/
structure DefaultClaims where
  tenantId : Str
  principalId : Str
  sub : Option Str
  exp : Option ℕ

instance : JwtClaims DefaultClaims where
  tenantId := DefaultClaims.tenantId
  principalId := DefaultClaims.principalId

/-- The claims in a token, if it is valid: `jsonwebtoken::decode` under a key
and what is to be validated. -/
structure JwtAuthState (C : Type) where
  decode : Str → Option C

/-- The header that carries the token. -/
def authorization : Str := "authorization".toList

/-- The token of the `Authorization` header; an empty one is refused. -/
def bearerToken (headers : HeaderMap) : Except AuthError Str :=
  match headers.get authorization with
  | none => .error .missingAuthorization
  | some value =>
    match value.toStr with
    | none => .error .invalidAuthorization
    | some value =>
      match value.dropPrefix? "Bearer ".toList with
      | none => .error .invalidAuthorization
      | some token => if token = [] then .error .invalidAuthorization else .ok token

section

variable {S : Sig} {C X ε : Type} [JwtClaims C]

/-- The identifiers are parsed again; the first that does not parse is reported. -/
def JwtAuth.fromClaims (claims : C) : Except AuthError (JwtAuth C) := do
  let tenant ← (TenantId.parse (JwtClaims.tenantId claims)).mapError
    fun err => .invalidId err.display
  let principal ← (PrincipalId.parse (JwtClaims.principalId claims)).mapError
    fun err => .invalidId err.display
  return ⟨AuthContext.new tenant principal, claims⟩

/-- From the headers to the subject, or the first error on the way. -/
def JwtAuthState.decodeFromHeaders (state : JwtAuthState C) (headers : HeaderMap) :
    Except AuthError (JwtAuth C) := do
  let token ← bearerToken headers
  match state.decode token with
  | none => .error .invalidToken
  | some claims => JwtAuth.fromClaims claims

omit [JwtClaims C] in
/-- The request with the authenticated subject in its extensions. -/
def Request.withAuth (req : Request C X) (auth : JwtAuth C) : Request C X :=
  { req with
    extensions :=
      { req.extensions with
        authSubject := some auth.context.subject
        authContext := some auth.context
        jwtAuth := some auth } }

/-- The layer decodes with a state of its own. -/
structure JwtAuthLayer (C : Type) where
  state : JwtAuthState C

/-- A request without a valid token is answered here; any other goes on with its subject. -/
def JwtAuthLayer.layer (layer : JwtAuthLayer C) (inner : Service S (Request C X) ε) :
    Service S (Request C X) ε where
  pollReady := return .ok ()
  call req :=
    match layer.state.decodeFromHeaders req.headers with
    | .ok auth => inner.forward (req.withAuth auth)
    | .error err => return .ok (AuthRejection.ofError err).intoResponse

/-- The extractor of a handler: what a layer for these claims has left, or else what
the headers say. -/
def JwtAuth.fromRequestParts (state : JwtAuthState C) (req : Request C X) :
    Except AuthRejection (JwtAuth C × Request C X) :=
  match req.extensions.jwtAuth with
  | some existing => .ok (existing, req)
  | none =>
    match state.decodeFromHeaders req.headers with
    | .ok auth => .ok (auth, req.withAuth auth)
    | .error err => .error (AuthRejection.ofError err)

end

/-- The context alone is extracted by way of the default claims. -/
def AuthContext.fromRequestParts {X : Type} (state : JwtAuthState DefaultClaims)
    (req : Request DefaultClaims X) :
    Except AuthRejection (AuthContext × Request DefaultClaims X) := do
  let (auth, req) ← JwtAuth.fromRequestParts state req
  return (auth.context, req)

end RsTenant.Axum
