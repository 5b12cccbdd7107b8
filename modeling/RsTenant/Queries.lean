import RsTenant.Engine

/-! # What a query does

The specification of the engine's queries, as the rest of the development uses
it: which operations a query can perform (`only_serve`), how it stops
(`stopsAt_serve`, `endsWith_serve`, `failsBy_serve`), what it returns against
a source and a cache that do not change (`eval_effectiveGrants`), and what it
returns and writes next to others that change them (`triple_serve`,
`triple_fills`).
-/

namespace RsTenant

open Interact Walk

/-! ## The operations of a query -/

/-- The read is about the subject or about a role of its tenant. -/
def SourceRead.Concerns (subject : AuthSubject) : SourceRead → Prop
  | .tenantStatus tenant => tenant = subject.tenant
  | .membershipStatus s => s = subject
  | .roleAssignments s => s = subject
  | .rolePermissions tenant _ => tenant = subject.tenant
  | .parentRoles tenant _ => tenant = subject.tenant

/-- The read is one that grants are computed from. -/
def SourceRead.IsGrantRead : SourceRead → Prop
  | .tenantStatus _ => False
  | .membershipStatus _ => False
  | _ => True

theorem SourceRead.Concerns.tenant_eq {subject : AuthSubject} {r : SourceRead}
    (h : r.Concerns subject) : r.tenant = subject.tenant := by
  cases r with
  | tenantStatus tenant => exact h
  | membershipStatus s => exact congrArg AuthSubject.tenant h
  | roleAssignments s => exact congrArg AuthSubject.tenant h
  | rolePermissions tenant role => exact h
  | parentRoles tenant role => exact h

/-- The operation is a read that concerns the subject, or a lookup or a write
of the subject's entry for one configuration. -/
def EngineOp.Concerns (subject : AuthSubject) (configSignature : Str) : EngineOp → Prop
  | .read r => r.Concerns subject
  | .getEffectiveGrants t p s =>
    t = subject.tenant ∧ p = subject.principal ∧ s = configSignature
  | .setEffectiveGrants t p s _ =>
    t = subject.tenant ∧ p = subject.principal ∧ s = configSignature
  | _ => False

/-- A read for the grants of the subject. -/
def EngineOp.ReadsGrants (subject : AuthSubject) : EngineOp → Prop
  | .read r => r.IsGrantRead ∧ r.Concerns subject
  | _ => False

/-- Two sources that answer the same to every read that concerns the
subject. -/
def AuthorizationSource.Agree (subject : AuthSubject) (src src' : AuthorizationSource) : Prop :=
  ∀ r : SourceRead, r.Concerns subject → src.answer r = src'.answer r

variable {engine : Engine} {subject : AuthSubject}

theorem only_readSource {G : EngineSig.Op → Prop} {r : SourceRead} (hr : G (.read r)) :
    (readSource r).run.Only G :=
  ⟨hr, fun _ => trivial⟩

/-- Computing the grants performs nothing but reads for the subject. -/
theorem only_computeGrants :
    (engine.computeGrants subject).run.Only (EngineOp.ReadsGrants subject) := by
  apply Fallible.only_bind (only_readSource ⟨trivial, rfl⟩)
  intro assignments
  apply only_assignmentGrants
  · intro role
    exact only_readSource ⟨trivial, rfl⟩
  · intro role
    exact only_readSource ⟨trivial, rfl⟩

theorem EngineOp.ReadsGrants.concerns {op : EngineOp} (h : op.ReadsGrants subject) (sig : Str) :
    op.Concerns subject sig := by
  cases op with
  | read r => exact h.2
  | _ => exact absurd h id

theorem EngineOp.ReadsGrants.not_isSet {op : EngineOp} (h : op.ReadsGrants subject) :
    ¬ op.IsSet := by
  cases op with
  | read r => exact id
  | _ => exact absurd h id

/-- Around that, the cache is asked and told about the subject's key. -/
theorem only_effectiveGrants :
    (engine.effectiveGrants subject).run.Only
      (EngineOp.Concerns subject engine.configSignature) := by
  refine Fallible.only_bind ⟨⟨rfl, rfl, rfl⟩, fun _ => trivial⟩ fun cached => ?_
  cases cached with
  | some grants => trivial
  | none =>
    refine Fallible.only_bind (only_computeGrants.mono fun op h => h.concerns _) fun grants => ?_
    exact Fallible.only_bind ⟨⟨rfl, rfl, rfl⟩, fun _ => trivial⟩ fun _ => trivial

/-- The two status reads decide whether the grants are looked at. -/
theorem resolveScope_cases (P : ∀ {α : Type}, Fallible EngineSig Error α → Prop)
    (query : ScopeQuery) (hpure : ∀ {α : Type} (a : α), P (pure a))
    (hread : ∀ {α : Type} (r : SourceRead) (k : r.Answer → Fallible EngineSig Error α),
      r.Concerns query.subject → ¬ r.IsGrantRead → (∀ a, P (k a)) → P (readSource r >>= k))
    (hgrants : P (engine.effectiveGrants query.subject >>= fun grants =>
      pure (engine.decide query grants))) : P (engine.resolveScope query) := by
  apply hread (.tenantStatus query.subject.tenant) _ rfl id
  intro tenantStatus
  split
  · exact hpure _
  · apply hread (.membershipStatus query.subject) _ rfl id
    intro membershipStatus
    split
    · exact hpure _
    · exact hgrants

/-- And before it, two statuses of the subject are read. -/
theorem only_resolveScope (query : ScopeQuery) :
    (engine.resolveScope query).run.Only
      (EngineOp.Concerns query.subject engine.configSignature) := by
  apply resolveScope_cases
    (fun {α} x => x.run.Only (EngineOp.Concerns query.subject engine.configSignature))
  · intro α a
    trivial
  · intro α r k hr _ hk
    exact Fallible.only_bind (only_readSource hr) hk
  · exact Fallible.only_bind only_effectiveGrants fun _ => trivial

/-- A query reads what concerns its subject and touches one cache entry. -/
theorem only_serve (request : Request) :
    (engine.serve request).run.Only
      (EngineOp.Concerns request.subject engine.configSignature) := by
  rw [engine.serve_eq, map_eq_pure_bind]
  exact Fallible.only_bind (only_resolveScope request.query) fun _ => trivial

/-! ## How a query stops -/

/-- The error that a failed read stands for. -/
def sourceFailure : (op : EngineSig.Op) → EngineSig.Resp op → Option Error
  | .read _, .error e => some (.source e)
  | _, _ => none

/-- A read that succeeds is one event, with the answer. -/
theorem path_readSource {r : SourceRead} {tr : List (Event EngineSig)} {a : r.Answer}
    (h : Prog.Path (readSource r).run tr (.ret (.ok a))) : tr = [⟨.read r, .ok a⟩] := by
  cases h with
  | step answer h =>
    rcases h.of_ret with ⟨rfl, hret⟩
    cases answer with
    | ok v =>
      cases hret
      rfl
    | error e => cases hret

theorem stopsAt_readSource (r : SourceRead) :
    Fallible.StopsAt sourceFailure (readSource r).run := by
  intro a
  refine ⟨fun e he => ?_, trivial⟩
  cases a with
  | ok v => cases he
  | error e' =>
    cases he
    rfl

theorem failsBy_readSource (r : SourceRead) :
    Fallible.FailsBy (Fallible.FailedAt sourceFailure) (readSource r).run := by
  intro tr e h
  cases h with
  | step a h =>
    rcases h.of_ret with ⟨rfl, hret⟩
    refine ⟨[], _, rfl, ?_⟩
    cases a with
    | ok v => cases hret
    | error e' =>
      cases hret
      rfl

/-- A failed read ends the loops at once. -/
theorem stopsAt_computeGrants :
    Fallible.StopsAt sourceFailure (engine.computeGrants subject).run := by
  apply (stopsAt_readSource _).bind
  intro assignments
  exact stopsAt_assignmentGrants (fun _ => stopsAt_readSource _) (fun _ => stopsAt_readSource _) _ _

/-- It ends the call, and nothing is cached. -/
theorem stopsAt_effectiveGrants :
    Fallible.StopsAt sourceFailure (engine.effectiveGrants subject).run := by
  have hget : Fallible.StopsAt sourceFailure
      (getEffectiveGrants subject.tenant subject.principal engine.configSignature).run :=
    fun r => ⟨nofun, trivial⟩
  apply hget.bind
  intro cached
  cases cached with
  | some grants => trivial
  | none =>
    apply stopsAt_computeGrants.bind
    intro grants
    have hset : Fallible.StopsAt sourceFailure
        (setEffectiveGrants subject.tenant subject.principal engine.configSignature grants).run :=
      fun r => ⟨nofun, trivial⟩
    exact hset.bind fun _ => trivial

/-- A query stops at the first read that fails and returns its error. -/
theorem stopsAt_serve (request : Request) :
    Fallible.StopsAt sourceFailure (engine.serve request).run := by
  rw [engine.serve_eq, map_eq_pure_bind]
  refine Fallible.StopsAt.bind ?_ fun _ => trivial
  apply resolveScope_cases fun {α} x => Fallible.StopsAt sourceFailure x.run
  · intro α a
    trivial
  · intro α r k _ _ hk
    exact (stopsAt_readSource r).bind hk
  · exact stopsAt_effectiveGrants.bind fun _ => trivial

/-- Filling the cache is the last thing that happens. -/
theorem endsWith_effectiveGrants :
    Fallible.EndsWith EngineOp.IsSet (engine.effectiveGrants subject).run := by
  refine Fallible.EndsWith.bind ⟨id, fun _ => trivial⟩ fun cached => ?_
  cases cached with
  | some grants => trivial
  | none =>
    refine Fallible.EndsWith.bind (only_computeGrants.mono fun op h => h.not_isSet) fun grants => ?_
    exact fun r => ⟨fun _ => ⟨grants, rfl⟩, trivial⟩

/-- After its cache write a query does nothing but succeed. -/
theorem endsWith_serve (request : Request) :
    Fallible.EndsWith EngineOp.IsSet (engine.serve request).run := by
  rw [engine.serve_eq]
  apply Fallible.EndsWith.map
  apply resolveScope_cases fun {α} x => Fallible.EndsWith EngineOp.IsSet x.run
  · intro α a
    trivial
  · intro α r k _ _ hk
    exact Fallible.EndsWith.bind (only_readSource id) hk
  · rw [← map_eq_pure_bind]
    exact endsWith_effectiveGrants.map _

/-- The trace ends with a failed read, or with the refused expansion of a role
that the subject was found to be assigned. -/
def FailedQuery (engine : Engine) (subject : AuthSubject) (tr : List (Event EngineSig))
    (e : Error) : Prop :=
  Fallible.FailedAt sourceFailure tr e ∨
    ∃ assignments, ⟨.read (.roleAssignments subject), .ok assignments⟩ ∈ tr ∧
      FailedExpansion (engine.roleReads subject.tenant) assignments tr e

theorem FailedQuery.append {tr : List (Event EngineSig)} {e : Error}
    (h : FailedQuery engine subject tr e) (pre : List (Event EngineSig)) :
    FailedQuery engine subject (pre ++ tr) e := by
  rcases h with h | ⟨assignments, hmem, hon, pre', exp, a, ha, rfl, hpath, he⟩
  · exact .inl (h.append pre)
  · refine .inr ⟨assignments, List.mem_append_right _ hmem, hon, pre ++ pre', exp, a, ha, ?_,
      hpath, he⟩
    rw [List.append_assoc]

/-- The loops fail at a read, or because a role cannot be expanded. -/
theorem failsBy_computeGrants :
    Fallible.FailsBy (FailedQuery engine subject) (engine.computeGrants subject).run := by
  refine Fallible.FailsBy.bind ((failsBy_readSource _).mono fun tr e h => .inl h) ?_
  intro tr assignments hread
  have hmem : (⟨.read (.roleAssignments subject), .ok assignments⟩ : Event EngineSig) ∈ tr := by
    rw [path_readSource hread]
    exact List.mem_singleton.mpr rfl
  have hloops : Fallible.FailsBy
      (fun tr' e => Fallible.FailedAt sourceFailure tr' e ∨
        FailedExpansion (engine.roleReads subject.tenant) assignments tr' e)
      ((engine.roleReads subject.tenant).assignmentGrants assignments []).run :=
    failsBy_assignmentGrants (fun _ => failsBy_readSource _) (fun _ => failsBy_readSource _) _ _
  refine hloops.mono fun tr' e h => ?_
  rcases h with h | ⟨hon, pre, exp, a, ha, rfl, hpath, he⟩
  · exact .inl (h.append tr)
  · refine .inr ⟨assignments, List.mem_append_left _ hmem, hon, tr ++ pre, exp, a, ha, ?_, hpath,
      he⟩
    rw [List.append_assoc]

theorem failsBy_effectiveGrants :
    Fallible.FailsBy (FailedQuery engine subject) (engine.effectiveGrants subject).run := by
  refine Fallible.FailsBy.bind ?_ fun tr cached _ => ?_
  · -- a lookup does not fail
    intro tr e h
    cases h with
    | step r h => cases h.of_ret.2
  · cases cached with
    | some grants => exact Fallible.FailsBy.of_pure grants
    | none =>
      refine Fallible.FailsBy.bind (failsBy_computeGrants.mono fun tr' e h => h.append tr) ?_
      intro tr' grants _ tr'' e h
      cases h with
      | step r h => cases h.of_ret.2

/-- A query that fails has ended at the read or at the expansion that made it
fail. -/
theorem failsBy_serve (request : Request) :
    Fallible.FailsBy (FailedQuery engine request.subject) (engine.serve request).run := by
  rw [engine.serve_eq, map_eq_pure_bind]
  refine Fallible.FailsBy.bind ?_ fun tr a _ => Fallible.FailsBy.of_pure _
  apply resolveScope_cases fun {α} x => Fallible.FailsBy (FailedQuery engine request.subject) x.run
  · intro α a
    exact Fallible.FailsBy.of_pure a
  · intro α r k _ _ hk
    refine Fallible.FailsBy.bind ((failsBy_readSource r).mono fun tr e h => .inl h) ?_
    intro tr a _
    exact (hk a).mono fun tr' e h => h.append tr
  · exact Fallible.FailsBy.bind failsBy_effectiveGrants fun tr grants _ =>
      Fallible.FailsBy.of_pure _

/-! ## What a query returns -/

/-- The grants that the engine computes from a source, or its error. -/
def Engine.fresh (engine : Engine) (src : AuthorizationSource) (subject : AuthSubject) :
    Except Error (List EffectiveGrant) :=
  (engine.computeGrants subject).run.eval (answers src NoCache)

/-- What the engine returns with `NoCache`. -/
def Engine.uncached (engine : Engine) (src : AuthorizationSource) (request : Request) :
    Except Error Reply :=
  (engine.serve request).run.eval (answers src NoCache)

/-- Computing grants does not look at the cache. -/
theorem eval_computeGrants (src : AuthorizationSource) (lookup : Lookup) :
    (engine.computeGrants subject).run.eval (answers src lookup) = engine.fresh src subject := by
  refine Prog.Only.eval_congr only_computeGrants fun op hop => ?_
  cases op with
  | read r => rfl
  | _ => exact absurd hop id

/-- The grants depend on the grant reads that concern the subject. -/
theorem fresh_congr {src src' : AuthorizationSource}
    (h : ∀ r : SourceRead, r.IsGrantRead → r.Concerns subject → src.answer r = src'.answer r) :
    engine.fresh src subject = engine.fresh src' subject := by
  refine Prog.Only.eval_congr only_computeGrants fun op hop => ?_
  cases op with
  | read r => exact h r hop.1 hop.2
  | _ => exact absurd hop id

/-- A hit is returned as it is, a miss is answered from the source. -/
theorem eval_effectiveGrants (src : AuthorizationSource) (lookup : Lookup) :
    (engine.effectiveGrants subject).run.eval (answers src lookup) =
      match lookup subject.tenant subject.principal engine.configSignature with
      | some grants => .ok grants
      | none => engine.fresh src subject := by
  unfold Engine.effectiveGrants
  rw [Fallible.eval_bind]
  show (match lookup subject.tenant subject.principal engine.configSignature with
    | some grants => (pure grants : Fallible EngineSig Error _)
    | none => engine.computeGrants subject >>= _).run.eval (answers src lookup) = _
  cases lookup subject.tenant subject.principal engine.configSignature with
  | some grants => rfl
  | none =>
    rw [Fallible.eval_bind, eval_computeGrants]
    cases engine.fresh src subject <;> rfl

/-- The gates, one after the other, against a source and a lookup. -/
theorem eval_resolveScope (src : AuthorizationSource) (lookup : Lookup) (query : ScopeQuery) :
    (engine.resolveScope query).run.eval (answers src lookup) =
      (do
        let tenantStatus ← (src.tenantStatus query.subject.tenant).mapError Error.source
        if tenantStatus ≠ .active then
          return (.none, some .tenantInactive)
        else do
          let membershipStatus ← (src.membershipStatus query.subject).mapError Error.source
          if membershipStatus ≠ .active then
            return (.none, some .principalInactive)
          else do
            let grants ← (engine.effectiveGrants query.subject).run.eval (answers src lookup)
            return engine.decide query grants) := by
  unfold Engine.resolveScope
  rw [Fallible.eval_bind]
  refine congrArg _ (funext fun tenantStatus => ?_)
  split
  · rfl
  · rw [Fallible.eval_bind]
    refine congrArg _ (funext fun membershipStatus => ?_)
    split
    · rfl
    · rw [Fallible.eval_bind]
      rfl

/-- Every query is read off what the scope resolves to. -/
theorem eval_serve (src : AuthorizationSource) (lookup : Lookup) (request : Request) :
    (engine.serve request).run.eval (answers src lookup) =
      ((engine.resolveScope request.query).run.eval (answers src lookup)).map request.reply := by
  rw [engine.serve_eq, Fallible.run_map, Prog.eval_bind]
  rfl

/-! ## What a query returns and writes next to others -/

/-- The answers a query needs to return what `NoCache` would: reads come from
`src` and a hit is what the engine would compute from it. -/
def Coherent (engine : Engine) (src : AuthorizationSource) (subject : AuthSubject) :
    (op : EngineSig.Op) → EngineSig.Resp op → Prop
  | .read r, a => a = src.answer r
  | .getEffectiveGrants _ _ _, cached => ∀ grants, cached = some grants →
      engine.fresh src subject = .ok grants
  | _, _ => True

/-- The grant reads that concern the subject were answered from `src`. -/
def ReadFrom (src : AuthorizationSource) (subject : AuthSubject) :
    (op : EngineSig.Op) → EngineSig.Resp op → Prop
  | .read r, a => r.IsGrantRead → r.Concerns subject → a = src.answer r
  | _, _ => True

/-- A cache write stores what the engine would compute from `src`. -/
def Fills (engine : Engine) (src : AuthorizationSource) (subject : AuthSubject) :
    EngineSig.Op → Prop
  | .setEffectiveGrants _ _ _ grants => engine.fresh src subject = .ok grants
  | _ => True

variable {src : AuthorizationSource}

/-- When the reads come from one source, the grants are those of that source. -/
theorem triple_computeGrants :
    (engine.computeGrants subject).run.Triple (ReadFrom src subject)
      (EngineOp.ReadsGrants subject) (fun res => res = engine.fresh src subject) := by
  refine Prog.Only.triple_eval only_computeGrants fun op r hop hr => ?_
  cases op with
  | read read => exact hr hop.1 hop.2
  | _ => exact absurd hop id

theorem EngineOp.ReadsGrants.fills {op : EngineOp} (h : op.ReadsGrants subject) :
    Fills engine src subject op := by
  cases op with
  | read r => trivial
  | _ => exact absurd h id

theorem Coherent.readFrom (op : EngineSig.Op) (a : EngineSig.Resp op)
    (h : Coherent engine src subject op a) : ReadFrom src subject op a := by
  cases op with
  | read r => exact fun _ _ => h
  | _ => trivial

/-- Whatever else happens, a query that reads its grants from `src` caches
nothing but what it computes from `src`. -/
theorem triple_fills (request : Request) :
    (engine.serve request).run.Triple (ReadFrom src request.subject)
      (Fills engine src request.subject) fun _ => True := by
  rw [engine.serve_eq, map_eq_pure_bind]
  refine Fallible.triple_bind (P := fun _ => True) ?_ (fun _ _ => trivial) fun _ h => h
  apply resolveScope_cases fun {α} x => x.run.Triple (ReadFrom src request.subject)
    (Fills engine src request.subject) fun _ => True
  · intro α a
    trivial
  · intro α r k _ _ hk
    have hread : (readSource r).run.Triple (ReadFrom src request.subject)
        (Fills engine src request.subject) fun _ => True := ⟨trivial, fun _ _ => trivial⟩
    exact Fallible.triple_bind hread (fun a _ => hk a) fun _ h => h
  · refine Fallible.triple_bind (P := fun _ => True) ?_ (fun _ _ => trivial) fun _ h => h
    refine Fallible.triple_bind (P := fun _ => True) ⟨trivial, fun _ _ => trivial⟩ ?_ fun _ h => h
    intro cached _
    cases cached with
    | some grants => trivial
    | none =>
      -- the grants written are the ones just computed
      have hcompute : (engine.computeGrants request.subject).run.Triple
          (ReadFrom src request.subject) (Fills engine src request.subject)
          fun res => res = engine.fresh src request.subject :=
        triple_computeGrants.mono (fun _ _ h => h) (fun _ hop => hop.fills) fun _ h => h
      refine Fallible.triple_bind hcompute ?_ fun _ _ => trivial
      intro grants hgrants
      exact ⟨hgrants.symm, fun _ _ => trivial⟩

theorem triple_readSource {A : (op : EngineSig.Op) → EngineSig.Resp op → Prop}
    {G : EngineSig.Op → Prop} {r : SourceRead} (hG : G (.read r))
    (hA : ∀ a, A (.read r) a → a = src.answer r) :
    (readSource r).run.Triple A G
      fun res => res = (readSource r).run.eval (answers src NoCache) := by
  refine ⟨hG, fun a ha => ?_⟩
  rw [hA a ha]
  rfl

/-- When the cache is coherent with it, the answer is that without a cache. -/
theorem triple_effectiveGrants :
    (engine.effectiveGrants subject).run.Triple (Coherent engine src subject)
      (EngineOp.Concerns subject engine.configSignature)
      (fun res => res = (engine.effectiveGrants subject).run.eval (answers src NoCache)) := by
  rw [eval_effectiveGrants]
  show (engine.effectiveGrants subject).run.Triple _ _ fun res => res = engine.fresh src subject
  -- a lookup never fails, and what it hits is coherent
  refine Fallible.triple_bind (P := fun res => ∃ cached, res = .ok cached ∧
    ∀ grants, cached = some grants → engine.fresh src subject = .ok grants) ?_ ?_ ?_
  · exact ⟨⟨rfl, rfl, rfl⟩, fun cached hcached => ⟨cached, rfl, hcached⟩⟩
  · rintro cached ⟨_, heq, hcached⟩
    cases heq
    cases cached with
    | some grants => exact (hcached grants rfl).symm
    | none =>
      have hcompute : (engine.computeGrants subject).run.Triple (Coherent engine src subject)
          (EngineOp.Concerns subject engine.configSignature)
          fun res => res = engine.fresh src subject :=
        triple_computeGrants.mono Coherent.readFrom (fun _ hop => hop.concerns _) fun _ h => h
      refine Fallible.triple_bind hcompute ?_ fun _ h => h
      intro grants hgrants
      exact ⟨⟨rfl, rfl, rfl⟩, fun _ _ => hgrants⟩
  · rintro e ⟨cached, heq, -⟩
    cases heq

/-- With coherent answers a query returns what it would with `NoCache`. -/
theorem triple_serve (request : Request) :
    (engine.serve request).run.Triple (Coherent engine src request.subject)
      (EngineOp.Concerns request.subject engine.configSignature)
      (fun res => res = engine.uncached src request) := by
  unfold Engine.uncached
  rw [engine.serve_eq, map_eq_pure_bind]
  refine Fallible.triple_eval_bind ?_ fun _ => rfl
  apply resolveScope_cases fun {α} x => x.run.Triple (Coherent engine src request.subject)
    (EngineOp.Concerns request.subject engine.configSignature)
    fun res => res = x.run.eval (answers src NoCache)
  · intro α a
    rfl
  · intro α r k hr _ hk
    exact Fallible.triple_eval_bind (triple_readSource hr fun a h => h) hk
  · exact Fallible.triple_eval_bind triple_effectiveGrants fun _ => rfl

end RsTenant
