import RsTenant.CacheHistory

/-! # A cached engine refines the uncached one

Operations that do not overlap: queries of any engines, changes of the data,
invalidations, time passing. As long as every change of the data behind a
subject's grants is followed by the invalidation it calls for before the next
query, every query returns what `NoCache` would (`cached_refines_uncached`).

The invariant is that an entry of the cache is what its engine would compute
from the source now, or else one of the changes that are still to be followed
by an invalidation concerns its subject (`Inv`).
-/

namespace RsTenant

open Interact

/-! ## Operations -/

/-- A call that runs from start to end before the next one starts. -/
inductive Operation where
  | query (ttl : Option Duration) (engine : Engine) (request : Request)
  | change (src' : AuthorizationSource)
  | invalidate (ttl : Option Duration) (engine : Engine) (inv : Invalidation)
  | advance (d : Duration)

/-- The change of an answer that the invalidation is meant to follow. -/
def Invalidation.Settles : Invalidation → SourceRead → Prop
  | .principal t p, r => r = .roleAssignments ⟨t, p⟩
  | .role t rl, r => r = .rolePermissions t rl ∨ r = .parentRoles t rl
  | .tenant t, r => r.tenant = t
  | .all, _ => True

/-- It covers every subject that the change concerns. -/
theorem Invalidation.Settles.covers {inv : Invalidation} {r : SourceRead} {subject : AuthSubject}
    (h : inv.Settles r) (hr : r.Concerns subject) : inv.Covers subject := by
  cases inv with
  | principal t p =>
    have hread : r = .roleAssignments ⟨t, p⟩ := h
    subst hread
    have hsubject : (⟨t, p⟩ : AuthSubject) = subject := hr
    subst hsubject
    exact ⟨rfl, rfl⟩
  | role t role =>
    rcases h with rfl | rfl
    · exact Eq.symm hr
    · exact Eq.symm hr
  | tenant t =>
    have htenant : r.tenant = t := h
    exact hr.tenant_eq.symm.trans htenant
  | all => trivial

/-- The grant reads whose answer has changed without the invalidation that the
change calls for. -/
abbrev Pending : Type := SourceRead → Prop

namespace Operation

def party : Operation → Party
  | .query ttl engine request => .query ttl engine request
  | .change src' => .mutate fun _ => src'
  | .invalidate ttl engine inv => .invalidate ttl engine inv
  | .advance d => .advance d

/-- The source after the operation. -/
def source (src : AuthorizationSource) : Operation → AuthorizationSource
  | .change src' => src'
  | _ => src

def pending (src : AuthorizationSource) (pend : Pending) : Operation → Pending
  | .change src' => fun r => pend r ∨ (r.IsGrantRead ∧ src.answer r ≠ src'.answer r)
  | .invalidate _ _ inv => fun r => pend r ∧ ¬ inv.Settles r
  | _ => pend

def IsQuery : Operation → Prop
  | .query _ _ _ => True
  | _ => False

end Operation

/-- No query comes before the invalidations that earlier changes call for. -/
def Disciplined : AuthorizationSource → Pending → List Operation → Prop
  | _, _, [] => True
  | src, pend, o :: ops =>
    (o.IsQuery → ∀ r, ¬ pend r) ∧ Disciplined (o.source src) (o.pending src pend) ops

section

variable [DefaultHasher] {cache : MemoryCache}

/-- What the operation returns and leaves behind. -/
def perform (cache : MemoryCache) (w : World) (o : Operation) : Returned × World :=
  (o.party.prog cache).exec World.handle w

def performAll (cache : MemoryCache) (w : World) (ops : List Operation) : World :=
  ops.foldl (fun w o => (perform cache w o).2) w

/-! ## The invariant -/

/-- The entry is what every engine that looks it up would compute. -/
def Current (src : AuthorizationSource) (key : CacheKey) (e : CacheEntry) : Prop :=
  ∀ engine : Engine, engine.configSignature = key.configSignature →
    engine.fresh src key.subject = .ok e.grants

/-- An entry in the shard of its key is current, or a pending change concerns
it. -/
structure Inv (cache : MemoryCache) (src : AuthorizationSource) (pend : Pending) (w : World) :
    Prop where
  source : w.source = src
  entry : ∀ key e, w.entry (cache.shardIndex key) key = some e →
    Current src key e ∨ ∃ r, pend r ∧ r.Concerns key.subject

variable {src : AuthorizationSource} {pend : Pending} {w w' : World}

/-! ## One operation of a query -/

/-- Without a change of the data the source stays. -/
theorem source_of_replay {tr : List (Event WorldSig)}
    (hreplay : Prog.Replay World.handle.Does w tr w')
    (hops : ∀ ev ∈ tr, WorldOp.OfCall cache ev.op) : w'.source = w.source := by
  have htrans : ∀ s s₁ s' : World, s₁.source = s.source → s'.source = s₁.source →
      s'.source = s.source := fun _ _ _ h₁ h₂ => h₂.trans h₁
  refine hreplay.rel (T := fun w w' => w'.source = w.source) (fun _ => rfl) htrans
    (G := WorldOp.OfCall cache) ?_ hops
  intro op w r w' hop hdoes
  have hw' : (World.handle op w).2 = w' := congrArg Prod.snd hdoes
  rw [← hw']
  cases op with
  | mutate change => exact absurd hop id
  | _ => rfl

/-- An entry found after the steps of a call was there before, unless the call
writes it. -/
theorem entry_of_replay {tr : List (Event WorldSig)}
    (hreplay : Prog.Replay World.handle.Does w tr w')
    (hops : ∀ ev ∈ tr, WorldOp.OfCall cache ev.op) {key : CacheKey} {e : CacheEntry}
    (hentry : w'.entry (cache.shardIndex key) key = some e) :
    (∃ ev ∈ tr, WorldOp.Writes cache key e ev.op) ∨
      (w.entry (cache.shardIndex key) key = some e ∧ ∀ ev ∈ tr, WorldOp.Keeps cache key ev.op) := by
  rcases exists_records hreplay with ⟨l, hrecords, rfl⟩
  rw [List.forall_mem_map] at hops
  rcases entry_written hrecords (fun o ho => (hops o ho).placed) hentry with
    ⟨l₁, s, l₂, rfl, hs, -⟩ | ⟨hbefore, hkeeps⟩
  · refine .inl ⟨s.event, List.mem_map.mpr ⟨s, ?_, rfl⟩, hs⟩
    exact List.mem_append_right _ List.mem_cons_self
  · exact .inr ⟨hbefore, List.forall_mem_map.mpr hkeeps⟩

/-- A lookup returns an entry that was there when it started. -/
theorem entry_of_get {ttl : Option Duration} {key : CacheKey} {tr : List (Event WorldSig)}
    {grants : List EffectiveGrant}
    (hpath : Prog.Path ((cache.cloneWith ttl).getEffectiveGrants key) tr (.ret (some grants)))
    (hreplay : Prog.Replay World.handle.Does w tr w') :
    ∃ at', w.entry (cache.shardIndex key) key = some ⟨grants, at'⟩ := by
  have hwrites : ∀ ev ∈ tr, ∀ key' e, WorldOp.Writes cache key' e ev.op →
      EngineOp.getEffectiveGrants key.tenant key.principal key.configSignature =
        .setEffectiveGrants key'.tenant key'.principal key'.configSignature e.grants :=
    (hpath.only (writes_lower ttl
      (.getEffectiveGrants key.tenant key.principal key.configSignature))).1
  have hops := (hpath.only ((performs_getEffectiveGrants ttl key).mono
    fun _ hop => hop.ofCall)).1
  rcases getEffectiveGrants_path hpath with ⟨now, mid, ev, rfl, hdecided⟩
  rw [← List.cons_append] at hreplay hwrites hops
  rw [List.forall_mem_append] at hwrites hops
  -- the entry is there when the last section decides, and no earlier step wrote it
  rcases hreplay.split with ⟨m, hbefore, hlast⟩
  rcases hlast with _ | ⟨hdoes, -⟩
  have hresp : ev.resp = (World.handle ev.op m).1 := (congrArg Prod.fst hdoes).symm
  have hfound : DecidedBy cache ttl key now grants
      (Occ.event (⟨0, m, ev⟩ : Occ WorldSig World)) := hdecided
  rcases entry_of_decided hfound hresp with ⟨at', hentry, -⟩
  rcases entry_of_replay hbefore hops.1 hentry with ⟨ev', hev', hwrite⟩ | ⟨hstart, -⟩
  · cases hwrites.1 ev' hev' _ _ hwrite
  · exact ⟨at', hstart⟩

/-- With no change pending, an operation of a query answers as the query relies
on, and keeps the invariant. -/
theorem coherent_whole {engine : Engine} {subject : AuthSubject} {ttl : Option Duration}
    {op : EngineSig.Op} {r : EngineSig.Resp op}
    (hop : op.Concerns subject engine.configSignature) (hfills : Fills engine src subject op)
    (hinv : Inv cache src (fun _ => False) w)
    (h : Prog.Whole World.handle.Does (cache.cloneWith ttl).lower op w r w') :
    Coherent engine src subject op r ∧ Inv cache src (fun _ => False) w' := by
  rcases h with ⟨tr, hpath, hreplay⟩
  have hops := (hpath.only ((performs_lower ttl op).mono fun _ hop => hop.ofCall)).1
  have hwrites : ∀ ev ∈ tr, ∀ key e, WorldOp.Writes cache key e ev.op →
      op = .setEffectiveGrants key.tenant key.principal key.configSignature e.grants :=
    (hpath.only (writes_lower ttl op)).1
  have hcurrent : ∀ {key e}, w.entry (cache.shardIndex key) key = some e → Current src key e := by
    intro key e hentry
    rcases hinv.entry key e hentry with hcurrent | ⟨r, hr, -⟩
    · exact hcurrent
    · exact absurd hr id
  constructor
  · cases op with
    | read read =>
      cases hpath with
      | step a hpath =>
        rcases hpath.of_ret with ⟨rfl, hret⟩
        cases hret
        rcases hreplay with _ | ⟨hdoes, -⟩
        have hanswer : w.source.answer read = r := congrArg Prod.fst hdoes
        rw [hinv.source] at hanswer
        exact hanswer.symm
    | getEffectiveGrants t p sig =>
      -- what is found was there, and every entry is current
      rcases hop with ⟨rfl, rfl, rfl⟩
      rintro grants rfl
      rcases entry_of_get hpath hreplay with ⟨at', hentry⟩
      exact hcurrent hentry engine rfl
    | _ => trivial
  · refine ⟨(source_of_replay hreplay hops).trans hinv.source, fun key e hentry => .inl ?_⟩
    rcases entry_of_replay hreplay hops hentry with ⟨ev, hev, hwrite⟩ | ⟨hbefore, -⟩
    · -- the grants just written are those computed from the source
      have hset := hwrites ev hev key e hwrite
      subst hset
      rcases hop with ⟨ht, hp, hsig⟩
      have hsubject : key.subject = subject := AuthSubject.ext ht hp
      intro engine' hsig'
      have hengine : engine' = engine := Engine.eq_of_signature (hsig'.trans hsig)
      rw [hengine, hsubject]
      exact hfills
    · exact hcurrent hbefore

/-! ## The operations keep the invariant -/

/-- With no change pending, a query returns what `NoCache` would. -/
theorem query_coherent {ttl : Option Duration} {engine : Engine} {request : Request}
    (hinv : Inv cache src (fun _ => False) w) :
    (perform cache w (.query ttl engine request)).1 = .result (engine.uncached src request) ∧
      Inv cache src (fun _ => False) (perform cache w (.query ttl engine request)).2 := by
  obtain ⟨tr, hpath, hreplay⟩ :=
    ((engine.serve request).run.subst (cache.cloneWith ttl).lower).exec_path World.handle w
  rcases Prog.Path.of_subst hpath hreplay with ⟨tr', hpath', hwhole⟩
  have hresult : (engine.serve request).run.Triple (Coherent engine src request.subject)
      (EngineOp.Concerns request.subject engine.configSignature)
      (fun res => res = engine.uncached src request) := triple_serve request
  have hfills : (engine.serve request).run.Triple (Coherent engine src request.subject)
      (Fills engine src request.subject) fun _ => True :=
    (triple_fills request).mono Coherent.readFrom (fun _ h => h) fun _ h => h
  -- each operation of the query answers coherently as long as the earlier ones were cached so
  have hres := (hresult.and hfills).replay (I := Inv cache src fun _ => False)
    (fun op s r s' hop hs hdoes => coherent_whole hop.1 hop.2 hs hdoes) hpath' hwhole hinv
  rcases hres with ⟨⟨hres, -⟩, hinv'⟩
  have hperform : perform cache w (.query ttl engine request) =
      (.result (((engine.serve request).run.subst (cache.cloneWith ttl).lower).exec
        World.handle w).1,
        (((engine.serve request).run.subst (cache.cloneWith ttl).lower).exec
          World.handle w).2) := by
    show (((engine.serve request).run.subst (cache.cloneWith ttl).lower) >>= fun res =>
      Prog.ret (Returned.result res)).exec World.handle w = _
    rw [Prog.exec_bind]
    rfl
  rw [hperform, hres]
  exact ⟨rfl, hinv'⟩

theorem Inv.mono {pend' : Pending} (h : Inv cache src pend w) (hpend : ∀ r, pend r → pend' r) :
    Inv cache src pend' w :=
  ⟨h.source, fun key e hentry => (h.entry key e hentry).imp_right
    fun ⟨r, hr, hconcerns⟩ => ⟨r, hpend r hr, hconcerns⟩⟩

/-- A change makes the entries stale that depend on it, and no others. -/
theorem inv_change (src' : AuthorizationSource) (hinv : Inv cache src pend w) :
    Inv cache src' (fun r => pend r ∨ (r.IsGrantRead ∧ src.answer r ≠ src'.answer r))
      { w with source := src' } := by
  refine ⟨rfl, fun key e hentry => ?_⟩
  rcases hinv.entry key e hentry with hcurrent | ⟨r, hr, hconcerns⟩
  · by_cases hchanged : ∃ r : SourceRead,
      (r.IsGrantRead ∧ src.answer r ≠ src'.answer r) ∧ r.Concerns key.subject
    · rcases hchanged with ⟨r, hr, hconcerns⟩
      exact .inr ⟨r, .inr hr, hconcerns⟩
    · -- the grants are computed from answers that have not changed
      refine .inl fun engine hsig => ?_
      rw [← hcurrent engine hsig]
      refine fresh_congr fun r hgrant hconcerns => ?_
      by_contra hne
      exact hchanged ⟨r, ⟨hgrant, fun heq => hne heq.symm⟩, hconcerns⟩
  · exact .inr ⟨r, .inl hr, hconcerns⟩

/-- An invalidation drops the entries that its changes have made stale. -/
theorem inv_invalidate {tr : List (Event WorldSig)} {inv : Invalidation}
    (hpath : Prog.Path (MemoryCache.eachShard inv.act (List.range cache.shardCount)) tr (.ret ()))
    (hreplay : Prog.Replay World.handle.Does w tr w') (hinv : Inv cache src pend w) :
    Inv cache src (fun r => pend r ∧ ¬ inv.Settles r) w' := by
  have hops : ∀ ev ∈ tr, WorldOp.OfCall cache ev.op := (hpath.only
    ((performs_eachShard inv).mono fun _ hop => hop.ofCall)).1
  have hwrites : ∀ ev ∈ tr, ∀ key e, ¬ WorldOp.Writes cache key e ev.op :=
    (hpath.only (not_writes_eachShard inv _)).1
  refine ⟨(source_of_replay hreplay hops).trans hinv.source, fun key e hentry => ?_⟩
  rcases entry_of_replay hreplay hops hentry with ⟨ev, hev, hwrite⟩ | ⟨hbefore, hkeeps⟩
  · exact absurd hwrite (hwrites ev hev key e)
  · refine (hinv.entry key e hbefore).imp_right ?_
    rintro ⟨r, hr, hconcerns⟩
    refine ⟨r, ⟨hr, fun hsettles => ?_⟩, hconcerns⟩
    -- the section on the shard of the key would have dropped the entry
    have hshard : cache.shardIndex key ∈ List.range cache.shardCount :=
      List.mem_range.mpr (cache.shardIndex_lt key)
    rcases eachShard_path hpath _ hshard with ⟨a, ha⟩
    have hdrops : inv.act.Drops key := (inv.drops_iff key).mpr (hsettles.covers hconcerns)
    exact (hkeeps _ ha).2 rfl hdrops

/-- Every operation keeps the invariant. -/
theorem inv_perform {o : Operation} (hinv : Inv cache src pend w)
    (hquery : o.IsQuery → ∀ r, ¬ pend r) :
    Inv cache (o.source src) (o.pending src pend) (perform cache w o).2 := by
  cases o with
  | query ttl engine request =>
    -- discipline lets a query start only when nothing is pending
    have hnone : ∀ r, ¬ pend r := hquery trivial
    have hstart : Inv cache src (fun _ => False) w := hinv.mono hnone
    exact (query_coherent hstart).2.mono fun _ h => h.elim
  | change src' => exact inv_change src' hinv
  | advance d => exact ⟨hinv.source, hinv.entry⟩
  | invalidate ttl engine inv =>
    obtain ⟨tr, hpath, hreplay⟩ :=
      (MemoryCache.eachShard inv.act (List.range cache.shardCount)).exec_path World.handle w
    have hperform : (perform cache w (.invalidate ttl engine inv)).2 =
        ((MemoryCache.eachShard inv.act (List.range cache.shardCount)).exec World.handle w).2 := by
      show (((engine.invalidate inv).subst (cache.cloneWith ttl).lower >>= fun _ =>
        Prog.ret Returned.done).exec World.handle w).2 = _
      rw [Prog.exec_bind, Engine.invalidate_lower]
      rfl
    rw [hperform]
    exact inv_invalidate hpath hreplay hinv

/-- So does every disciplined sequence of them, up to each of its queries. -/
theorem inv_performAll {pre : List Operation} {ttl : Option Duration} {engine : Engine}
    {request : Request} {post : List Operation} (hinv : Inv cache src pend w)
    (hdisc : Disciplined src pend (pre ++ .query ttl engine request :: post)) :
    Inv cache (performAll cache w pre).source (fun _ => False) (performAll cache w pre) := by
  induction pre generalizing src pend w with
  | nil =>
    have hnone : ∀ r, ¬ pend r := hdisc.1 trivial
    have hsource : w.source = src := hinv.source
    show Inv cache w.source (fun _ => False) w
    rw [hsource]
    exact hinv.mono hnone
  | cons o pre ih => exact ih (inv_perform hinv hdisc.1) hdisc.2

end

/-! ## The refinement -/

/-- Any number of engines share clones of one cache, and their operations do
not overlap. If every change of the answers that grants are computed from is
followed, before the next query, by the invalidation it calls for, every query
returns what the same engine with `NoCache` would return at that moment. -/
theorem cached_refines_uncached [DefaultHasher] (cache : MemoryCache) (w : World) (hw : w.Fresh)
    (ops : List Operation) (hdisc : Disciplined w.source (fun _ => False) ops)
    (pre post : List Operation) (ttl : Option Duration) (engine : Engine) (request : Request)
    (hops : ops = pre ++ .query ttl engine request :: post) :
    (perform cache (performAll cache w pre) (.query ttl engine request)).1 =
      .result (engine.uncached (performAll cache w pre).source request) := by
  subst hops
  have hstart : Inv cache w.source (fun _ => False) w := by
    refine ⟨rfl, fun key e hentry => ?_⟩
    simp [World.entry, hw _, CacheState.empty] at hentry
  exact (query_coherent (inv_performAll hstart hdisc)).1

namespace Sample

/-- The clerk asks, is dismissed, and asks again. -/
def script : List Operation :=
  [.query none (Engine.build default) (.accessibleScope query), .change dismissed.source,
    .invalidate none (Engine.build default) (.principal tenant principal),
    .query (some 5) (Engine.build default) (.accessibleScope query)]

end Sample

theorem cached_refines_uncached_sample :
    (@perform Sample.hasher Sample.cache
        (@performAll Sample.hasher Sample.cache Sample.world (Sample.script.take 3))
        (.query (some 5) (Engine.build default) (.accessibleScope Sample.query))).1 =
      .result ((Engine.build default).uncached
        (@performAll Sample.hasher Sample.cache Sample.world (Sample.script.take 3)).source
        (.accessibleScope Sample.query)) := by
  refine @cached_refines_uncached Sample.hasher Sample.cache Sample.world (fun _ => rfl)
    Sample.script ?_ (Sample.script.take 3) [] (some 5) (Engine.build default)
    (.accessibleScope Sample.query) rfl
  refine ⟨fun _ r h => h, nofun, nofun, fun _ r hr => ?_, trivial⟩
  rcases hr with ⟨hchanged | ⟨-, hchanged⟩, hsettled⟩
  · exact hchanged
  · -- only the clerk's assignments have changed
    cases r with
    | roleAssignments s =>
      by_cases hs : s = Sample.subject
      · subst hs
        exact hsettled rfl
      · apply hchanged
        show Except.ok _ = Except.ok (if s = Sample.subject then _ else _)
        rw [if_neg hs]
    | _ => exact hchanged rfl

end RsTenant
