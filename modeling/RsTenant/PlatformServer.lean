import RsTenant.PlatformMoments
import RsTenant.Server

/-! # Platform requests next to each other

The same for `PlatformAuthorizeLayer`. The platform engine keeps no cache, so the
grounds of a decision are what the request's own reads saw
(`platform_request_end_to_end`).
-/

namespace RsTenant.Axum

open Interact

section

variable {C X ε τ : Type}

/-- The layer of an engine over a source that may change. -/
def PlatformAuthorizeLayer.overSource (engine : PlatformEngine) (permission : Permission) :
    PlatformAuthorizeLayer PlatformWorldSig where
  canPlatform request := (engine.canPlatform request).run.left
  permission := permission

/-- A request on some route, or anything else that happens to the source. -/
inductive PlatformClient (C X : Type) where
  | request (engine : PlatformEngine) (permission : Permission) (req : Request C X)
  | other (party : PlatformParty)

def PlatformClient.prog : PlatformClient C X →
    Prog (PlatformWorldSig.sum (InnerSig (Request C X) ε)) (Option (Except ε Response))
  | .request engine permission req => do
    let layer := PlatformAuthorizeLayer.overSource engine permission
    let res ← (layer.layer (handler PlatformWorldSig (Request C X) ε)).call req
    return some res
  | .other party => do
    let _ ← party.prog.left
    return none

/-- The state after the clients have taken turns; `service` is the inner
service, with a state of its own. -/
def platformServerAfter (src : PlatformAuthorizationSource)
    (service : Handler (InnerSig (Request C X) ε) τ) (t : τ) (clients : ℕ → PlatformClient C X)
    (sched : List ℕ) :
    Pool (PlatformWorldSig.sum (InnerSig (Request C X) ε)) (PlatformAuthorizationSource × τ)
      (Option (Except ε Response)) :=
  Pool.run (Handler.beside PlatformAuthorizationSource.handle service)
    { shared := (src, t), threads := fun i => (clients i).prog, hist := [] } sched

/-- The states of the source in which thread `i` took its steps. -/
def platformSourcesAt (i : ℕ)
    (hist : List (Occ (PlatformWorldSig.sum (InnerSig (Request C X) ε))
      (PlatformAuthorizationSource × τ))) : List PlatformAuthorizationSource :=
  (statesAt i hist).map Prod.fst

/-- What a decision on access to the platform rests on, when the sources are those
at the steps of the request. -/
def PlatformGrounds (srcs : List PlatformAuthorizationSource) (engine : PlatformEngine)
    (subject : PlatformSubject) (permission : Permission) : AccessDecision → Prop
  | .allow =>
    (∃ src ∈ srcs, src.platformPrincipalStatus subject = .ok .active) ∧
      PlatformGranted engine.config permission (ever srcs fun src => src.data subject) .platform
  | .deny =>
    (∃ src ∈ srcs, src.platformPrincipalStatus subject = .ok .inactive) ∨
      ¬ PlatformGranted engine.config permission (always srcs fun src => src.data subject) .platform

theorem platformGrounds_of_path {srcs : List PlatformAuthorizationSource} {engine : PlatformEngine}
    {subject : PlatformSubject} {permission : Permission} {tr : List (Event PlatformSig)}
    {d : AccessDecision}
    (hpath : Prog.Path (engine.canPlatform ⟨subject, permission⟩).run tr (.ret (.ok d)))
    (hanswers : ∀ ev ∈ tr, ReadFromAny srcs ev.op ev.resp) :
    PlatformGrounds srcs engine subject permission d := by
  have hserve : Prog.Path (engine.serve (.canPlatform ⟨subject, permission⟩)).run tr
      (.ret (.ok (.decision d))) := by
    show Prog.Path (PlatformReply.decision <$> engine.canPlatform ⟨subject, permission⟩).run _ _
    rw [Fallible.run_map]
    exact List.append_nil tr ▸ hpath.bind (.refl _)
  -- the decision is that of the query, so it is bracketed by what the reads saw
  have houtcome := platformOutcome_of_path hserve hanswers
  generalize hres : (Except.ok (PlatformReply.decision d) : Except Error PlatformReply) = res
    at houtcome
  cases houtcome with
  | failed => cases hres
  | inactive hsrc hstatus =>
    cases hres
    exact .inl ⟨_, hsrc, hstatus⟩
  | active hsrc hstatus hbracketed =>
    subst hres
    cases hbracketed with
    | canPlatform checked =>
      cases d with
      | allow => exact ⟨⟨_, hsrc, hstatus⟩, checked.sound rfl⟩
      | deny => exact .inr fun h => by cases checked.complete h

/-- A request's reads are answered by the source as it is then. -/
theorem read_of_mem {src : PlatformAuthorizationSource} {t : τ}
    {service : Handler (InnerSig (Request C X) ε) τ} {s' : PlatformAuthorizationSource × τ}
    {hist : List (Occ (PlatformWorldSig.sum (InnerSig (Request C X) ε))
      (PlatformAuthorizationSource × τ))}
    (hrecords : Records (Handler.beside PlatformAuthorizationSource.handle service) (src, t) hist s')
    {i : ℕ} {ev : Event PlatformSig} (hev : ev.left.left ∈ trail i hist) :
    ReadFromAny (platformSourcesAt i hist) ev.op ev.resp := by
  obtain ⟨o, ho, hthread, hevent⟩ := mem_trail.mp hev
  refine ⟨o.pre.1, List.mem_map.mpr ⟨o.pre, mem_statesAt.mpr ⟨o, ho, hthread, rfl⟩, rfl⟩, ?_⟩
  have hresp := hrecords.resp o ho
  rw [hevent] at hresp
  exact hresp

/-- Over every interleaving of requests behind `PlatformAuthorizeLayer` with
changes of the source, whatever the inner service does: a request without a
subject is turned away and does nothing else. Any other one is passed on at most
once, as it is, and whether it is rests on what its own reads saw. -/
theorem platform_request_end_to_end (src : PlatformAuthorizationSource)
    (service : Handler (InnerSig (Request C X) ε) τ) (t : τ) (clients : ℕ → PlatformClient C X)
    (sched : List ℕ) (i : ℕ) (engine : PlatformEngine) (permission : Permission)
    (req : Request C X) (hi : clients i = .request engine permission req) :
    let c := platformServerAfter src service t clients sched
    (req.platformSubject = none → trail i c.hist = [] ∧
      c.threads i = .ret (some (.ok (intoResponse .unauthorized "missing platform auth context")))) ∧
    ∀ subject, req.platformSubject = some subject →
      Handled (PlatformGrounds (platformSourcesAt i c.hist) engine subject permission) req
        (innerCalls (trail i c.hist) (c.threads i)) (c.threads i).result?.join := by
  intro c
  obtain ⟨hrecords, hpaths⟩ :=
    Pool.run_from_start (Handler.beside PlatformAuthorizationSource.handle service) (src, t)
      (fun k => (clients k).prog) sched
  have hpath : Prog.Path (PlatformClient.request engine permission req).prog (trail i c.hist)
      (c.threads i) := by
    rw [← hi]
    exact hpaths i
  obtain ⟨q, hcall, hq⟩ := hpath.of_map
  constructor
  · intro hsubject
    have hcall' : Prog.Path (authorize req.platformSubject "missing platform auth context"
        (fun subject => (engine.canPlatform ⟨subject, permission⟩).run.left.left)
        (handler PlatformWorldSig (Request C X) ε) req) (trail i c.hist) q := hcall
    rw [hsubject] at hcall'
    obtain ⟨htrail, rfl⟩ := hcall'.of_ret
    exact ⟨htrail, hq⟩
  · intro subject hsubject
    have hguarded := guarded_authorize hcall
    rw [hsubject] at hguarded
    refine Handled.of_map hq (hguarded.handled fun d asked hask hbefore => ?_)
    -- the engine looks at the source only, on the left
    obtain ⟨tr, q', hserved, rfl, hret⟩ := Prog.Path.of_left hask
    cases q' with
    | call op k => cases hret
    | ret out =>
      cases hret
      refine platformGrounds_of_path hserved fun ev hev => ?_
      have hmem : ev.left.left ∈ trail i c.hist :=
        hbefore.subset (List.mem_map_of_mem (List.mem_map_of_mem hev))
      exact read_of_mem hrecords hmem

end

namespace Sample

open RsTenant.Sample

def operating : Request DefaultClaims Unit where
  headers := []
  extensions := ⟨none, none, none, some ⟨operator⟩, none⟩
  rest := ()

/-- The operator asks, while the support role loses its permissions. -/
def supervised (k : ℕ) : PlatformClient DefaultClaims Unit :=
  if k = 1 then .other (.mutate revoke) else .request ⟨default⟩ read operating

def operated : Pool (PlatformWorldSig.sum (InnerSig (Request DefaultClaims Unit) Empty))
    (PlatformAuthorizationSource × Unit) (Option (Except Empty Response)) :=
  platformServerAfter platformFacts.source page () supervised [0, 0, 0, 1, 0, 0, 0]

end Sample

theorem platform_request_end_to_end_sample :
    PlatformGrounds (platformSourcesAt 0 Sample.operated.hist) ⟨default⟩ Sample.operator
      Sample.read .allow := by
  have h := (platform_request_end_to_end Sample.platformFacts.source Sample.page ()
    Sample.supervised [0, 0, 0, 1, 0, 0, 0] 0 ⟨default⟩ Sample.read Sample.operating rfl).2
    Sample.operator rfl
  have hanswer : (Sample.operated.threads 0).result?.join = some (.ok ⟨200, ""⟩) := rfl
  change Handled _ _ _ (Sample.operated.threads 0).result?.join at h
  rw [hanswer] at h
  cases h with
  | called hgrounds => exact hgrounds

end RsTenant.Axum
