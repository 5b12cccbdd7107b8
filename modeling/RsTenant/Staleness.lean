import RsTenant.CacheHistory

/-! # Grants after an invalidation

Somebody changes the data, invalidates, and then asks, while others go on
asking and changing in between. The invalidation drops the entries that are
there, but not those that are still to come: a query that read the old data
may write its grants after the invalidation has passed (`stale_grants`), and
everybody finds them from then on.

`no_stale_grants` shows that this is the only way it can go wrong. When no
query fills the subject's entry behind a covering invalidation with grants it
computed from an answer that was out of date by then, the later query returns
what an uncached engine would.
-/

namespace RsTenant

open Interact

section

variable [DefaultHasher] {cache : MemoryCache}

/-! ## What a query relies on, step by step -/

/-- The answers that a query of the subject needs to return what `NoCache`
would. -/
def Reliable (cache : MemoryCache) (engine : Engine) (src : AuthorizationSource)
    (subject : AuthSubject) (op : WorldSig.Op) (r : WorldSig.Resp op) : Prop :=
  (∀ read a, (⟨op, r⟩ : Event WorldSig) = ⟨.read read, a⟩ → read.Concerns subject →
    a = src.answer read) ∧
  ∀ ttl now grants,
    DecidedBy cache ttl ⟨subject.tenant, subject.principal, engine.configSignature⟩ now grants
      ⟨op, r⟩ → engine.fresh src subject = .ok grants

/-- The grant reads that concern the subject were answered from `src`. -/
def GrantsReadFrom (src : AuthorizationSource) (subject : AuthSubject) (op : WorldSig.Op)
    (r : WorldSig.Resp op) : Prop :=
  ∀ read a, (⟨op, r⟩ : Event WorldSig) = ⟨.read read, a⟩ → read.IsGrantRead →
    read.Concerns subject → a = src.answer read

variable {engine : Engine} {src : AuthorizationSource} {subject : AuthSubject}
  {ttl : Option Duration}

theorem coherent_lower {op : EngineSig.Op} (hop : op.Concerns subject engine.configSignature) :
    ((cache.cloneWith ttl).lower op).Triple (Reliable cache engine src subject) (fun _ => True)
      (Coherent engine src subject op) := by
  cases op with
  | read r => exact ⟨trivial, fun a ha => ha.1 r a rfl hop⟩
  | getEffectiveGrants t p sig =>
    rcases hop with ⟨rfl, rfl, rfl⟩
    show ((cache.cloneWith ttl).getEffectiveGrants _).Triple _ _ _
    unfold MemoryCache.getEffectiveGrants
    split
    · exact nofun
    · refine ⟨trivial, fun now _ => ⟨trivial, fun phase hphase => ?_⟩⟩
      cases phase with
      | hit grants =>
        rintro found ⟨⟩
        exact hphase.2 ttl now grants (.inl rfl)
      | miss => exact nofun
      | locked =>
        refine ⟨trivial, fun cached hcached => ?_⟩
        rintro grants rfl
        exact hcached.2 ttl now grants (.inr rfl)
  | setEffectiveGrants t p sig grants =>
    have hsteps : ((cache.cloneWith ttl).setEffectiveGrants ⟨t, p, sig⟩ grants).Only
        fun _ => True :=
      (cache.cloneWith ttl).setEffectiveGrants_only _ _ trivial fun _ _ => trivial
    exact hsteps.triple.weaken fun _ _ => trivial
  | _ => exact absurd hop id

/-- With reliable answers a query returns what it would with `NoCache`. -/
theorem triple_query (request : Request) :
    (Party.prog cache (.query ttl engine request)).Triple
      (Reliable cache engine src request.subject) (fun _ => True)
      (fun out => out = .result (engine.uncached src request)) := by
  refine Prog.Triple.bind (Prog.Triple.subst (fun op hop => coherent_lower hop)
    (triple_serve request)) ?_
  rintro res rfl
  rfl

theorem fills_lower {op : EngineSig.Op} (hfills : Fills engine src subject op) :
    ((cache.cloneWith ttl).lower op).Triple (GrantsReadFrom src subject)
      (fun step : WorldOp => ∀ key e, step.Writes cache key e →
        engine.fresh src subject = .ok e.grants)
      (ReadFrom src subject op) := by
  have hwrites : ((cache.cloneWith ttl).lower op).Only fun step : WorldOp => ∀ key e,
      step.Writes cache key e → engine.fresh src subject = .ok e.grants := by
    refine (writes_lower ttl op).mono fun step hstep key e hwrite => ?_
    have hop := hstep key e hwrite
    subst hop
    exact hfills
  cases op with
  | read r => exact ⟨hwrites.1, fun a ha => ha r a rfl⟩
  | _ => exact hwrites.triple.weaken fun _ h => h

/-- A query whose grant reads are answered from `src` caches what it computes
from `src`. -/
theorem triple_query_fills (request : Request) :
    (Party.prog cache (.query ttl engine request)).Triple (GrantsReadFrom src request.subject)
      (fun step : WorldOp => ∀ key e, step.Writes cache key e →
        engine.fresh src request.subject = .ok e.grants) fun _ => True :=
  Prog.Triple.bind (Prog.Triple.subst (fun _ hop => fills_lower hop) (triple_fills request))
    fun _ _ => trivial

/-! ## The scenario -/

/-- After the history `l`, the step `s` fills an entry of the subject behind a
covering invalidation: one has visited the shard, and the grants come from an
answer that the source no longer gave at that visit. -/
def StaleFill (cache : MemoryCache) (subject : AuthSubject) (l : List (Occ WorldSig World))
    (s : Occ WorldSig World) : Prop :=
  ∃ key e, key.subject = subject ∧ s.event.op.Writes cache key e ∧
    ∃ l₁ v l₂ act, l = l₁ ++ v :: l₂ ∧ v.event.op = .locked (cache.shardIndex key) act ∧
      act.Drops key ∧
      ∃ o ∈ l₁, o.thread = s.thread ∧ ∃ r a, o.event = ⟨.read r, a⟩ ∧ r.IsGrantRead ∧
        r.Concerns subject ∧ a ≠ v.pre.source.answer r

/-- Three stretches of a run. By the end of the first the data of the subject
is what it will stay; in the second party `j` starts and finishes an
invalidation that covers the subject; party `i` starts its query in the
third. -/
structure Scenario (cache : MemoryCache) (w : World) (parties : ℕ → Party) (s₁ s₂ s₃ : List ℕ)
    (j i : ℕ) (engine : Engine) (request : Request) : Prop where
  fresh : w.Fresh
  noSets : ∀ k ttl key grants, parties k ≠ .set ttl key grants
  quiet : ∀ new, (after cache w parties (s₁ ++ s₂ ++ s₃)).hist =
      (after cache w parties s₁).hist ++ new →
    ∀ o ∈ new, ∀ change, o.event.op = .mutate change →
      o.pre.source.Agree request.subject (change o.pre.source)
  invalidates : ∃ ttl engine' inv, parties j = .invalidate ttl engine' inv ∧
    inv.Covers request.subject
  starts : j ∉ s₁
  returns : (after cache w parties (s₁ ++ s₂)).threads j = .ret .done
  asks : ∃ ttl, parties i = .query ttl engine request
  asksLater : i ∉ s₁ ++ s₂

namespace Scenario

variable {w : World} {parties : ℕ → Party} {s₁ s₂ s₃ : List ℕ} {j i : ℕ} {request : Request}

/-- The history after the first stretch: every read that concerns the subject
is answered from the data as it was then. -/
theorem reads_after (h : Scenario cache w parties s₁ s₂ s₃ j i engine request) :
    ∃ n₂ n₃, (after cache w parties (s₁ ++ s₂)).hist =
        (after cache w parties s₁).hist ++ n₂ ∧
      (after cache w parties (s₁ ++ s₂ ++ s₃)).hist =
        (after cache w parties s₁).hist ++ (n₂ ++ n₃) ∧
      ∀ o ∈ n₂ ++ n₃,
        (after cache w parties s₁).shared.source.Agree request.subject o.pre.source ∧
        ∀ r a, o.event = ⟨.read r, a⟩ → r.Concerns request.subject →
          a = (after cache w parties s₁).shared.source.answer r := by
  rcases after_append cache w parties s₁ s₂ with ⟨n₂, h₂, hrec₂, -⟩
  rcases after_append cache w parties (s₁ ++ s₂) s₃ with ⟨n₃, h₃, hrec₃, -⟩
  rw [h₂] at h₃
  replace h₃ := h₃.trans (List.append_assoc _ _ _)
  refine ⟨n₂, n₃, h₂, h₃, ?_⟩
  have hrecords := records_append.mpr ⟨_, hrec₂, hrec₃⟩
  have hagree : ∀ o ∈ n₂ ++ n₃,
      (after cache w parties s₁).shared.source.Agree request.subject o.pre.source := by
    refine hrecords.invariant_at (P := fun w' =>
      (after cache w parties s₁).shared.source.Agree request.subject w'.source)
      (fun _ _ => rfl) ?_
    intro o ho hpre
    -- only a change of the data changes the source, and it leaves the subject's alone
    rcases o with ⟨k, pre, ⟨op, resp⟩⟩
    cases op with
    | mutate change =>
      intro r hr
      exact (hpre r hr).trans (h.quiet _ h₃ _ ho change rfl r hr)
    | _ => exact hpre
  intro o ho
  refine ⟨hagree o ho, fun r a hevent hr => ?_⟩
  have hresp := hrecords.resp o ho
  rw [hevent] at hresp
  have hanswer : a = o.pre.source.answer r := hresp
  exact hanswer.trans (hagree o ho r hr).symm

/-- What was read for a fill behind the invalidation, unless the fill is stale, was
answered from the data after the first stretch. -/
theorem reads_current (h : Scenario cache w parties s₁ s₂ s₃ j i engine request)
    {l l' m n : List (Occ WorldSig World)} {s v : Occ WorldSig World} {key : CacheKey}
    {e : CacheEntry} {act : Section}
    (hhist : (after cache w parties (s₁ ++ s₂ ++ s₃)).hist = l ++ s :: l')
    (hl : l = (after cache w parties s₁).hist ++ m ++ v :: n)
    (hkey : key.subject = request.subject) (hwrites : s.event.op.Writes cache key e)
    (hvisit : v.event.op = .locked (cache.shardIndex key) act) (hdrops : act.Drops key)
    (hfill : ¬ StaleFill cache request.subject l s) {o : Occ WorldSig World} (ho : o ∈ l)
    (hthread : o.thread = s.thread) {r : SourceRead} {a : Except SourceError r.Answer}
    (hevent : o.event = ⟨.read r, a⟩) (hgrant : r.IsGrantRead)
    (hconcerns : r.Concerns request.subject) :
    a = (after cache w parties s₁).shared.source.answer r := by
  rcases h.reads_after with ⟨n₂, n₃, -, h₃, hreads⟩
  have hsuffix : m ++ v :: (n ++ s :: l') = n₂ ++ n₃ := by
    have hfirst : (after cache w parties s₁).hist ++ (m ++ v :: (n ++ s :: l')) =
        (after cache w parties s₁).hist ++ (n₂ ++ n₃) := by
      rw [← h₃, hhist, hl]
      simp only [List.append_assoc, List.cons_append]
    exact List.append_cancel_left hfirst
  have hlater : ∀ o' ∈ v :: n, o' ∈ n₂ ++ n₃ := by
    intro o' ho'
    rw [← hsuffix, ← List.cons_append]
    exact List.mem_append_right _ (List.mem_append_left _ ho')
  rw [hl] at ho
  rcases List.mem_append.mp ho with hearly | hlate
  · -- before the visit: else the fill would be stale
    by_contra hne
    refine hfill ⟨key, e, hkey, hwrites, _, v, n, act, hl, hvisit, hdrops, o, hearly, hthread, r,
      a, hevent, hgrant, hconcerns, fun heq => hne ?_⟩
    rw [heq]
    exact ((hreads v (hlater v List.mem_cons_self)).1 r hconcerns).symm
  · exact (hreads o (hlater o hlate)).2 r a hevent hconcerns

/-- A fill behind the invalidation, unless it is stale, stores what is computed
from the data after the first stretch. -/
theorem fill_current (h : Scenario cache w parties s₁ s₂ s₃ j i engine request)
    {l l' m n : List (Occ WorldSig World)} {s v : Occ WorldSig World} {key : CacheKey}
    {e : CacheEntry} {act : Section}
    (hhist : (after cache w parties (s₁ ++ s₂ ++ s₃)).hist = l ++ s :: l')
    (hl : l = (after cache w parties s₁).hist ++ m ++ v :: n)
    (hkey : key.subject = request.subject) (hwrites : s.event.op.Writes cache key e)
    (hvisit : v.event.op = .locked (cache.shardIndex key) act) (hdrops : act.Drops key)
    (hfill : ¬ StaleFill cache request.subject l s) {engine' : Engine}
    (hsig : engine'.configSignature = key.configSignature) :
    engine'.fresh (after cache w parties s₁).shared.source request.subject = .ok e.grants := by
  -- the thread that fills is a query of the same subject and configuration
  have hs : s ∈ (after cache w parties (s₁ ++ s₂ ++ s₃)).hist :=
    hhist ▸ List.mem_append_right _ List.mem_cons_self
  obtain ⟨ttl', engine₀, request₀, hparty, hsubject, hsig₀⟩ :=
    query_of_write h.noSets hs hwrites
  have hengine : engine' = engine₀ := Engine.eq_of_signature (hsig.trans hsig₀)
  have hrequest : request₀.subject = request.subject := hsubject.symm.trans hkey
  have hpath := (after_history cache w parties (s₁ ++ s₂ ++ s₃)).2.1 s.thread
  rw [hhist, List.append_cons, trail_append, hparty] at hpath
  obtain ⟨p, hpath, -⟩ := hpath.split
  have htriple : (Party.prog cache (.query ttl' engine₀ request₀)).Triple
      (GrantsReadFrom (after cache w parties s₁).shared.source request₀.subject) _ _ :=
    triple_query_fills request₀
  have hmem : s.event ∈ trail s.thread (l ++ [s]) :=
    mem_trail.mpr ⟨s, List.mem_append_right _ (List.mem_singleton.mpr rfl), rfl, rfl⟩
  rw [hengine, ← hrequest]
  refine (htriple.path hpath ?_).2 _ hmem key e hwrites
  -- each of its reads is answered from that data
  intro ev hev r a hevent hgrant hconcerns
  rw [hrequest] at hconcerns
  rcases mem_trail.mp hev with ⟨o, ho, hthread, rfl⟩
  rcases List.mem_append.mp ho with ho | ho
  · exact h.reads_current hhist hl hkey hwrites hvisit hdrops hfill ho hthread hevent hgrant
      hconcerns
  · rw [List.mem_singleton] at ho
    subst ho
    rcases hwrites with ⟨ttl'', shardCapacity, hop⟩
    have hcontra : o.event.op = .read r := congrArg Event.op hevent
    rw [hop] at hcontra
    cases hcontra

/-- In the second stretch the invalidation visits the shard of the subject's entry,
and drops the entry there. -/
theorem visited (h : Scenario cache w parties s₁ s₂ s₃ j i engine request)
    {n₂ : List (Occ WorldSig World)} (h₂ : (after cache w parties (s₁ ++ s₂)).hist =
      (after cache w parties s₁).hist ++ n₂) :
    ∃ v ∈ n₂, ∃ inv : Invalidation, v.event.op = .locked (cache.shardIndex
        ⟨request.subject.tenant, request.subject.principal, engine.configSignature⟩) inv.act ∧
      inv.act.Drops
        ⟨request.subject.tenant, request.subject.principal, engine.configSignature⟩ := by
  rcases h.invalidates with ⟨ttl, engine', inv, hj, hcovers⟩
  obtain ⟨v, hv, hthread, hvisit⟩ := invalidation_visits hj h.returns
    ⟨request.subject.tenant, request.subject.principal, engine.configSignature⟩
  exact ⟨v, steps_later h.starts h₂ hv hthread, inv, hvisit, (inv.drops_iff _).mpr hcovers⟩

/-- What the later query is answered is reliable. -/
theorem reliable (h : Scenario cache w parties s₁ s₂ s₃ j i engine request)
    (hfill : ∀ l s l', (after cache w parties (s₁ ++ s₂ ++ s₃)).hist = l ++ s :: l' →
      ¬ StaleFill cache request.subject l s) :
    ∀ ev ∈ trail i (after cache w parties (s₁ ++ s₂ ++ s₃)).hist,
      Reliable cache engine (after cache w parties s₁).shared.source request.subject ev.op
        ev.resp := by
  intro ev hev
  rcases h.reads_after with ⟨n₂, n₃, h₂, h₃, hreads⟩
  rcases mem_trail.mp hev with ⟨o, ho, hthread, rfl⟩
  -- the query takes its steps in the third stretch
  have hlater : (after cache w parties (s₁ ++ s₂ ++ s₃)).hist =
      (after cache w parties (s₁ ++ s₂)).hist ++ n₃ := by
    rw [h₃, h₂, List.append_assoc]
  have ho₃ : o ∈ n₃ := steps_later h.asksLater hlater ho hthread
  refine ⟨(hreads o (List.mem_append_right _ ho₃)).2, fun ttl' now grants hdecided => ?_⟩
  rcases List.append_of_mem ho₃ with ⟨a, b, rfl⟩
  -- the set that wrote what it finds
  rcases after_history cache w parties (s₁ ++ s₂ ++ s₃) with ⟨hrecords, -, -, hplaced⟩
  have hsplit : (after cache w parties (s₁ ++ s₂ ++ s₃)).hist =
      ((after cache w parties (s₁ ++ s₂)).hist ++ a) ++ o :: b := by
    rw [hlater, List.append_assoc]
  rw [hsplit] at hrecords hplaced
  obtain ⟨at', ⟨l₁, s, l₂, hwritten, hwrites, hkeeps⟩, -⟩ :=
    written_of_decided h.fresh hrecords hplaced hdecided
  -- the visit of the invalidation to that shard
  obtain ⟨v, hv, inv, hvisit, hdrops⟩ := h.visited h₂
  rcases List.append_of_mem hv with ⟨m, n, rfl⟩
  have hbefore : ((after cache w parties s₁).hist ++ m) ++ v :: (n ++ a) = l₁ ++ s :: l₂ := by
    rw [← hwritten, h₂]
    simp only [List.append_assoc, List.cons_append]
  -- where the visit stands, relative to the set
  rcases split_cases hbefore with ⟨-, rfl, -⟩ | ⟨n', hl₁, -⟩ | ⟨n', -, hl₂⟩
  · -- the visit is not the set
    rw [hvisit] at hwrites
    exact absurd hwrites.sets (not_sets_act inv _)
  · -- the set came after the visit
    have hfull : (after cache w parties (s₁ ++ s₂ ++ s₃)).hist = l₁ ++ s :: (l₂ ++ o :: b) := by
      rw [hsplit, hwritten, List.append_assoc, List.cons_append]
    exact h.fill_current hfull hl₁ rfl hwrites hvisit hdrops (hfill _ _ _ hfull) rfl
  · -- nothing after the set dropped the entry
    have hkeep := hkeeps v (hl₂ ▸ List.mem_append_right _ List.mem_cons_self)
    rw [hvisit] at hkeep
    exact absurd hdrops (hkeep.2 rfl)

end Scenario

end

/-! ## When the later query is right -/

/-- Over every interleaving of queries, changes of the data and invalidations:
unless some query makes a stale fill, a query that starts after a covering
invalidation has returned, with no further change of the subject's data,
returns what an uncached engine computes from that data. -/
theorem no_stale_grants [DefaultHasher] (cache : MemoryCache) (w : World) (parties : ℕ → Party)
    (s₁ s₂ s₃ : List ℕ) (j i : ℕ) (engine : Engine) (request : Request)
    (h : Scenario cache w parties s₁ s₂ s₃ j i engine request)
    (hfill : ∀ l s l', (after cache w parties (s₁ ++ s₂ ++ s₃)).hist = l ++ s :: l' →
      ¬ StaleFill cache request.subject l s)
    (res : Except Error Reply)
    (hres : (after cache w parties (s₁ ++ s₂ ++ s₃)).threads i = .ret (.result res)) :
    res = engine.uncached (after cache w parties s₁).shared.source request := by
  have hpath := (after_history cache w parties (s₁ ++ s₂ ++ s₃)).2.1 i
  rcases h.asks with ⟨ttl, hi⟩
  rw [hres, hi] at hpath
  have hreturned := ((triple_query request).path hpath (h.reliable hfill)).1
  exact Returned.result.inj hreturned

/-! ## Two runs of the scenario -/

section Kinds

/-- What a step can contribute to a stale fill. -/
inductive Kind where
  | read | drop | set | change | other
deriving DecidableEq

/-- The statuses are no part of the grants. -/
def WorldOp.kind : WorldOp → Kind
  | .read (.tenantStatus _) => .other
  | .read (.membershipStatus _) => .other
  | .read _ => .read
  | .now => .other
  | .locked _ (.getRead _ _ _) => .other
  | .locked _ (.getWrite _ _ _) => .other
  | .locked _ (.set _ _ _ _ _) => .set
  | .locked _ _ => .drop
  | .mutate _ => .change
  | .advance _ => .other

def kinds (l : List (Occ WorldSig World)) : List (ℕ × Kind) :=
  l.map fun o => (o.thread, o.event.op.kind)

theorem SourceRead.IsGrantRead.kind {r : SourceRead} (h : r.IsGrantRead) :
    (WorldOp.read r).kind = .read := by
  cases r with
  | tenantStatus tenant => exact absurd h id
  | membershipStatus subject => exact absurd h id
  | _ => rfl

theorem Section.Drops.kind {act : Section} {key : CacheKey} (h : act.Drops key) (i : ℕ) :
    (WorldOp.locked i act).kind = .drop := by
  cases act with
  | getRead key ttl now => exact absurd h id
  | getWrite key ttl now => exact absurd h id
  | set key grants ttl now shardCapacity => exact absurd h id
  | invalidatePrincipal tenant principal => rfl
  | invalidateTenant tenant => rfl
  | invalidateAll => rfl

/-- A stale fill takes a read, a visit of an invalidation and a set, in this
order, the first and the last by one thread. -/
theorem not_staleFill_of_kinds [DefaultHasher] {cache : MemoryCache} {subject : AuthSubject}
    {hist : List (Occ WorldSig World)}
    (h : ∀ q j, ¬ [(q, Kind.read), (j, Kind.drop), (q, Kind.set)].Sublist (kinds hist)) :
    ∀ l s l', hist = l ++ s :: l' → ¬ StaleFill cache subject l s := by
  rintro l s l' rfl ⟨key, e, -, ⟨ttl, shardCapacity, hs⟩, l₁, v, l₂, act, rfl, hv, hdrops, o, ho,
    hthread, r, a, hevent, hgrant, -⟩
  apply h s.thread v.thread
  have hread : o.event.op.kind = .read := by rw [hevent]; exact hgrant.kind
  have hdrop : v.event.op.kind = .drop := by rw [hv]; exact hdrops.kind _
  have hset : s.event.op.kind = .set := by rw [hs]; rfl
  have hsub : [o, v, s].Sublist (l₁ ++ v :: l₂ ++ s :: l') := by
    rw [List.append_assoc]
    refine (List.singleton_sublist.mpr ho).append (.cons_cons v ?_)
    exact List.singleton_sublist.mpr (List.mem_append_right _ List.mem_cons_self)
  have hmap := hsub.map fun o => (o.thread, o.event.op.kind)
  simpa [kinds, hread, hdrop, hset, hthread] using hmap

/-- No change of the data at all is a quiet rest of a run. -/
theorem quiet_of_kinds {hist hist₁ : List (Occ WorldSig World)}
    (h : ∀ x ∈ (kinds hist).drop hist₁.length, x.2 ≠ .change) :
    ∀ new, hist = hist₁ ++ new → ∀ o ∈ new, ∀ change, o.event.op ≠ .mutate change := by
  rintro new rfl o ho change hop
  have hdrop : (kinds (hist₁ ++ new)).drop hist₁.length = kinds new := by
    simp [kinds]
  rw [hdrop] at h
  have hmem : (o.thread, o.event.op.kind) ∈ kinds new := List.mem_map.mpr ⟨o, ho, rfl⟩
  apply h _ hmem
  rw [hop]
  rfl

end Kinds

namespace Sample

/-- The clerk asks twice, is dismissed, and the clerk's entries are invalidated. -/
def dismissal (k : ℕ) : Party :=
  if k = 1 then .mutate fun _ => dismissed.source
  else if k = 2 then .invalidate none (Engine.build default) (.principal tenant principal)
  else .query none (Engine.build default) (.accessibleScope query)

theorem dismissal_ne_set (k : ℕ) (ttl : Option Duration) (key : CacheKey)
    (grants : List EffectiveGrant) : dismissal k ≠ .set ttl key grants := by
  unfold dismissal
  split
  · nofun
  · split <;> nofun

/-- The same number of entries, in two shards. -/
def sharded : MemoryCache := cache.withShards 2

/-- The stretches of a run of these parties, in which the dismissal is over by
the end of the first. -/
theorem dismissal_scenario {c : MemoryCache} {s₁ s₂ s₃ : List ℕ}
    (hquiet : ∀ x ∈ (kinds (@after hasher c world dismissal (s₁ ++ s₂ ++ s₃)).hist).drop
      (@after hasher c world dismissal s₁).hist.length, x.2 ≠ .change)
    (hstarts : 2 ∉ s₁)
    (hreturns : (@after hasher c world dismissal (s₁ ++ s₂)).threads 2 = .ret .done)
    (hasks : 3 ∉ s₁ ++ s₂) :
    @Scenario hasher c world dismissal s₁ s₂ s₃ 2 3 (Engine.build default)
      (.accessibleScope query) := by
  refine @Scenario.mk hasher _ _ _ _ _ _ _ _ _ _ (fun _ => rfl) dismissal_ne_set ?_
    ⟨none, _, .principal tenant principal, rfl, rfl, rfl⟩ hstarts hreturns ⟨none, rfl⟩ hasks
  intro new hnew o ho change hop
  exact absurd hop (quiet_of_kinds hquiet new hnew o ho change)

end Sample

/-- The first query has missed when the clerk is dismissed. It is still under way
while the invalidation visits the two shards, reads the grants and caches them
behind it. The second query finds that entry. -/
theorem no_stale_grants_sample :
    (.ok (.scope .none) : Except Error Reply) =
      (Engine.build default).uncached
        (@after Sample.hasher Sample.sharded Sample.world Sample.dismissal
          [0, 0, 0, 0, 1]).shared.source (.accessibleScope Sample.query) := by
  refine @no_stale_grants Sample.hasher Sample.sharded Sample.world Sample.dismissal
    [0, 0, 0, 0, 1] [2, 2] [0, 0, 0, 3, 3, 3, 3] 2 3 (Engine.build default)
    (.accessibleScope Sample.query)
    (Sample.dismissal_scenario (by decide) (by decide) rfl (by decide)) ?_ _ rfl
  apply @not_staleFill_of_kinds Sample.hasher
  intro q j hsub
  have hkinds : kinds (@after Sample.hasher Sample.sharded Sample.world Sample.dismissal
      ([0, 0, 0, 0, 1] ++ [2, 2] ++ [0, 0, 0, 3, 3, 3, 3])).hist =
      [(0, .other), (0, .other), (0, .other), (0, .other), (1, .change), (2, .drop), (2, .drop),
        (0, .read), (0, .other), (0, .set), (3, .other), (3, .other), (3, .other), (3, .other)] :=
    rfl
  rw [hkinds] at hsub
  -- only the first query reads grants, and it does so when the visits are over
  have hq : q = 0 := by
    have hmem := hsub.subset List.mem_cons_self
    simpa using hmem
  have hj : j = 2 := by
    have hmem := hsub.subset (List.mem_cons_of_mem _ List.mem_cons_self)
    simpa using hmem
  subst hq hj
  exact absurd hsub (by decide)

/-- The first query has read the clerk's grants when the clerk is dismissed,
and caches them after the invalidation has passed. The second query is answered
from that entry. -/
theorem stale_grants :
    @Scenario Sample.hasher Sample.cache Sample.world Sample.dismissal [0, 0, 0, 0, 0, 0, 1] [2]
        [0, 0, 3, 3, 3, 3] 2 3 (Engine.build default) (.accessibleScope Sample.query) ∧
      (@after Sample.hasher Sample.cache Sample.world Sample.dismissal
          ([0, 0, 0, 0, 0, 0, 1] ++ [2] ++ [0, 0, 3, 3, 3, 3])).threads 3 =
        .ret (.result (.ok (.scope (.tenant Sample.tenant)))) ∧
      (Engine.build default).uncached
          (@after Sample.hasher Sample.cache Sample.world Sample.dismissal
            [0, 0, 0, 0, 0, 0, 1]).shared.source (.accessibleScope Sample.query) =
        .ok (.scope .none) :=
  ⟨Sample.dismissal_scenario (by decide) (by decide) rfl (by decide), rfl, rfl⟩

end RsTenant
