import RsTenant.OneWayRuns

/-! # A time to live bounds staleness

Without any invalidation a cache with a time to live still catches up. The
argument is about clock readings: a lookup finds an entry only if its own
reading is at most the time to live after the one that the writer of the entry
took (`sampled`), and the clock never goes back (`clock_le`). So a query that
starts late enough finds only what queries wrote that started after the last
change (`ttl_bounds_staleness`).
-/

namespace RsTenant

open Interact

/-! ## Clock readings -/

/-- The instant that a lock section is given. -/
def Section.instant? : Section → Option Instant
  | .getRead _ _ now => some now
  | .getWrite _ _ now => some now
  | .set _ _ _ now _ => some now
  | _ => none

def WorldOp.instant? : WorldOp → Option Instant
  | .locked _ act => act.instant?
  | _ => none

/-- The latest clock reading. -/
def sample (last : Option Instant) : Event WorldSig → Option Instant
  | ⟨.now, now⟩ => some now
  | _ => last

/-- An operation that is given an instant is given the latest clock reading. -/
def UsesSample (last : Option Instant) (op : WorldOp) : Prop :=
  ∀ t, op.instant? = some t → last = some t

/-- The latest reading is there in the trace. -/
theorem mem_of_foldl_sample {t : Instant} {last : Option Instant} {tr : List (Event WorldSig)}
    (h : tr.foldl sample last = some t) :
    last = some t ∨ (⟨.now, t⟩ : Event WorldSig) ∈ tr := by
  induction tr generalizing last with
  | nil => exact .inl h
  | cons ev tr ih =>
    rcases ih h with hev | hmem
    · rcases ev with ⟨op, r⟩
      cases op with
      | now =>
        have hr : r = t := Option.some.inj hev
        subst hr
        exact .inr List.mem_cons_self
      | _ => exact .inl hev
    · exact .inr (List.mem_cons_of_mem _ hmem)

section Sampled

variable [DefaultHasher] {cache : MemoryCache}

theorem obeys_getEffectiveGrants (key : CacheKey) (last : Option Instant) :
    Prog.Obeys sample UsesSample last (cache.getEffectiveGrants key) := by
  unfold MemoryCache.getEffectiveGrants
  split
  · trivial
  · refine ⟨nofun, fun now => ⟨fun t ht => ht, fun phase => ?_⟩⟩
    cases phase with
    | hit grants => trivial
    | miss => trivial
    | locked => exact ⟨fun t ht => ht, fun _ => trivial⟩

theorem obeys_setEffectiveGrants (key : CacheKey) (grants : List EffectiveGrant)
    (last : Option Instant) :
    Prog.Obeys sample UsesSample last (cache.setEffectiveGrants key grants) := by
  unfold MemoryCache.setEffectiveGrants
  split
  · trivial
  · exact ⟨nofun, fun now => ⟨fun t ht => ht, fun _ => trivial⟩⟩

omit [DefaultHasher] in
theorem obeys_eachShard (inv : Invalidation) (shards : List ℕ) (last : Option Instant) :
    Prog.Obeys sample UsesSample last (MemoryCache.eachShard inv.act shards) := by
  refine Prog.Only.obeys (MemoryCache.eachShard_only fun i _ g t ht => ?_) last
  have hnone : inv.act.instant? = none := by cases inv <;> rfl
  have hsome : inv.act.instant? = some t := ht
  rw [hnone] at hsome
  cases hsome

theorem obeys_lower (op : EngineSig.Op) (last : Option Instant) :
    Prog.Obeys sample UsesSample last (cache.lower op) := by
  cases op with
  | read r => exact ⟨nofun, fun _ => trivial⟩
  | getEffectiveGrants t p sig => exact obeys_getEffectiveGrants _ last
  | setEffectiveGrants t p sig grants => exact obeys_setEffectiveGrants _ grants last
  | invalidatePrincipal t p => exact obeys_eachShard (.principal t p) _ last
  | invalidateRole t r => exact obeys_eachShard (.role t r) _ last
  | invalidateTenant t => exact obeys_eachShard (.tenant t) _ last
  | invalidateAll => exact obeys_eachShard .all _ last

theorem obeys_prog (party : Party) (last : Option Instant) :
    Prog.Obeys sample UsesSample last (party.prog cache) := by
  cases party with
  | get ttl key => exact (obeys_getEffectiveGrants key last).bind fun _ _ => trivial
  | set ttl key grants => exact (obeys_setEffectiveGrants key grants last).bind fun _ _ => trivial
  | query ttl engine request =>
    exact (Prog.Obeys.subst obeys_lower _ last).bind fun _ _ => trivial
  | invalidate ttl engine inv =>
    exact (Prog.Obeys.subst obeys_lower _ last).bind fun _ _ => trivial
  | mutate change => exact ⟨nofun, fun _ => trivial⟩
  | advance d => exact ⟨nofun, fun _ => trivial⟩

variable {w : World} {parties : ℕ → Party} {sched : List ℕ}

/-- The instant that a step is given is what the clock read at an earlier step
of its thread. -/
theorem sampled {l l' : List (Occ WorldSig World)} {o : Occ WorldSig World} {t : Instant}
    (hhist : (after cache w parties sched).hist = l ++ o :: l')
    (ht : o.event.op.instant? = some t) :
    ∃ o' ∈ l, o'.thread = o.thread ∧ o'.pre.clock = t := by
  rcases after_history cache w parties sched with ⟨hrecords, hpaths, -, -⟩
  have hpath := hpaths o.thread
  rw [hhist, trail_append, trail_cons_self] at hpath
  have hlast : (trail o.thread l).foldl sample none = some t :=
    (obeys_prog (parties o.thread) none).path hpath t ht
  rcases mem_of_foldl_sample hlast with hnone | hmem
  · cases hnone
  · obtain ⟨o', ho', hthread, hevent⟩ := mem_trail.mp hmem
    refine ⟨o', ho', hthread, ?_⟩
    have hin : o' ∈ (after cache w parties sched).hist := by
      rw [hhist]
      exact List.mem_append_left _ ho'
    have hresp := hrecords.resp o' hin
    rw [hevent] at hresp
    exact hresp.symm

omit [DefaultHasher] in
/-- The clock never goes back. -/
theorem clock_le {l : List (Occ WorldSig World)} {w' : World}
    (hrecords : Records World.handle w l w') :
    ∀ o ∈ l, w.clock ≤ o.pre.clock ∧ o.pre.clock ≤ w'.clock := by
  refine hrecords.rel (T := fun w w' : World => w.clock ≤ w'.clock) (fun _ => le_refl _)
    (fun _ _ _ => le_trans) ?_
  rintro ⟨k, pre, ⟨op, r⟩⟩ -
  cases op with
  | advance d => exact Nat.le_add_right pre.clock d
  | _ => exact le_refl _

end Sampled

/-- An entry that is young enough at a reading after a wait was written after
the start of the wait. -/
theorem lt_of_age {start ttl late now at' : ℕ} (hwait : start + ttl < late) (hlate : late ≤ now)
    (hage : now - at' ≤ ttl) : start < at' := by
  omega

/-! ## Whose time to live is used -/

/-- The time to live that a lookup goes by. -/
def WorldOp.ttl? : WorldOp → Option (Option Duration)
  | .locked _ (.getRead _ ttl _) => some ttl
  | .locked _ (.getWrite _ ttl _) => some ttl
  | _ => none

/-- A query looks up with the time to live of its own handle. -/
theorem ttl_query [DefaultHasher] {cache : MemoryCache} {ttl : Option Duration} {engine : Engine}
    {request : Request} : (Party.prog cache (.query ttl engine request)).Only
      fun step : WorldOp => ∀ ttl', step.ttl? = some ttl' → ttl' = ttl := by
  refine Prog.Only.bind ((only_serve request).subst fun op hop => ?_) fun _ => trivial
  cases op with
  | read r => exact ⟨nofun, fun _ => trivial⟩
  | getEffectiveGrants t p sig =>
    refine (cache.cloneWith ttl).getEffectiveGrants_only ⟨t, p, sig⟩ nofun ?_ ?_
    · intro now ttl' h
      exact (Option.some.inj h).symm
    · intro now ttl' h
      exact (Option.some.inj h).symm
  | setEffectiveGrants t p sig grants =>
    exact (cache.cloneWith ttl).setEffectiveGrants_only ⟨t, p, sig⟩ grants nofun fun _ now => nofun
  | _ => exact absurd hop id

/-- The section that decides a lookup goes by its time to live and by its clock
reading. -/
theorem DecidedBy.given [DefaultHasher] {cache : MemoryCache} {ttl : Option Duration}
    {key : CacheKey} {now : Instant} {grants : List EffectiveGrant} {ev : Event WorldSig}
    (h : DecidedBy cache ttl key now grants ev) :
    WorldOp.ttl? ev.op = some ttl ∧ WorldOp.instant? ev.op = some now := by
  rcases h with rfl | rfl
  · exact ⟨rfl, rfl⟩
  · exact ⟨rfl, rfl⟩

/-! ## The scenario -/

/-- Four stretches of a run, without a set by hand. By the end of the first what
the subject sees of the data is what it will stay; by the end of the second the queries
of the subject that had begun by then have returned; the third takes longer
than the time to live; in the fourth party `i` asks. -/
structure Waited [DefaultHasher] (cache : MemoryCache) (w : World) (parties : ℕ → Party)
    (s₁ s₂ s₃ s₄ : List ℕ) (i : ℕ) (ttl : Duration) (engine : Engine) (request : Request) :
    Prop where
  fresh : w.Fresh
  noSets : ∀ k ttl key grants, parties k ≠ .set ttl key grants
  quiet : ∀ new, (after cache w parties (s₁ ++ s₂ ++ s₃ ++ s₄)).hist =
      (after cache w parties s₁).hist ++ new →
    ∀ o ∈ new, ∀ change, o.event.op = .mutate change →
      o.pre.source.Alike engine request.subject (change o.pre.source)
  returned : ∀ k ∈ s₁, ∀ ttl' request', parties k = .query ttl' engine request' →
    request'.subject = request.subject →
    ∃ out, (after cache w parties (s₁ ++ s₂)).threads k = .ret out
  waits : (after cache w parties (s₁ ++ s₂)).shared.clock + ttl <
    (after cache w parties (s₁ ++ s₂ ++ s₃)).shared.clock
  asks : parties i = .query (some ttl) engine request
  asksLater : i ∉ s₁ ++ s₂ ++ s₃

namespace Waited

variable [DefaultHasher] {cache : MemoryCache} {w : World} {parties : ℕ → Party}
  {s₁ s₂ s₃ s₄ : List ℕ} {i : ℕ} {ttl : Duration} {engine : Engine} {request : Request}

/-- What is performed after the first stretch. -/
theorem reads_after (h : Waited cache w parties s₁ s₂ s₃ s₄ i ttl engine request) :
    ∃ new, (after cache w parties (s₁ ++ s₂ ++ s₃ ++ s₄)).hist =
        (after cache w parties s₁).hist ++ new ∧
      ∀ o ∈ new, ∀ r a, o.event = ⟨.read r, a⟩ →
        (after cache w parties s₁).shared.source.Footprint engine request.subject r →
        a = (after cache w parties s₁).shared.source.answer r := by
  have hassoc : s₁ ++ s₂ ++ s₃ ++ s₄ = s₁ ++ (s₂ ++ s₃ ++ s₄) := by simp
  rcases after_append cache w parties s₁ (s₂ ++ s₃ ++ s₄) with ⟨new, hhist, hrecords, -⟩
  rw [← hassoc] at hhist hrecords
  refine ⟨new, hhist, fun o ho r a hevent hr => ?_⟩
  exact read_of_alike hrecords (h.quiet new hhist) ho hevent hr

/-- A thread that takes a step after the second stretch and writes an entry of
the subject began after the first one. -/
theorem began_later (h : Waited cache w parties s₁ s₂ s₃ s₄ i ttl engine request)
    {n : List (Occ WorldSig World)}
    (hhist : (after cache w parties (s₁ ++ s₂ ++ s₃ ++ s₄)).hist =
      (after cache w parties (s₁ ++ s₂)).hist ++ n)
    {o : Occ WorldSig World} (ho : o ∈ n) {ttl' : Option Duration} {request' : Request}
    (hparty : parties o.thread = .query ttl' engine request')
    (hsubject : request'.subject = request.subject) : o.thread ∉ s₁ := by
  intro hearly
  obtain ⟨out, hout⟩ := h.returned o.thread hearly ttl' request' hparty hsubject
  have hpath₂ := (after_history cache w parties (s₁ ++ s₂)).2.1 o.thread
  have hpath := (after_history cache w parties (s₁ ++ s₂ ++ s₃ ++ s₄)).2.1 o.thread
  rw [hout] at hpath₂
  rw [hhist, trail_append] at hpath
  -- a thread that has returned takes no further step
  have hrest := (hpath₂.cancel hpath).of_ret.1
  have hmem : o.event ∈ trail o.thread n := mem_trail.mpr ⟨o, ho, rfl, rfl⟩
  rw [hrest] at hmem
  exact List.not_mem_nil hmem

/-- What the late query finds is computed from the data as it stays. -/
theorem fresh_of_found (h : Waited cache w parties s₁ s₂ s₃ s₄ i ttl engine request)
    {o : Occ WorldSig World}
    (ho : o ∈ (after cache w parties (s₁ ++ s₂ ++ s₃ ++ s₄)).hist) (hthread : o.thread = i)
    {now : Instant} {grants : List EffectiveGrant}
    (hdecided : DecidedBy cache (some ttl)
      ⟨request.subject.tenant, request.subject.principal, engine.configSignature⟩ now grants
      o.event) :
    engine.fresh (after cache w parties s₁).shared.source request.subject = .ok grants := by
  obtain ⟨l, n, hhist⟩ := List.append_of_mem ho
  obtain ⟨l₁, s, l₂, at', hsplit, hwrites, hage⟩ := writes_of_decided h.fresh hhist hdecided
  have hs : s ∈ (after cache w parties (s₁ ++ s₂ ++ s₃ ++ s₄)).hist := by
    rw [hsplit]
    exact List.mem_append_right _ List.mem_cons_self
  -- the reading of the lookup, in the last stretch
  have hnow : (after cache w parties (s₁ ++ s₂ ++ s₃)).shared.clock ≤ now := by
    obtain ⟨o', ho', hthread', hclock⟩ := sampled hhist hdecided.given.2
    rcases after_append cache w parties (s₁ ++ s₂ ++ s₃) s₄ with ⟨n₄, hhist₄, hrecords₄, -⟩
    have hmem : o' ∈ (after cache w parties (s₁ ++ s₂ ++ s₃)).hist ++ n₄ := by
      rw [← hhist₄, hhist]
      exact List.mem_append_left _ ho'
    rcases List.mem_append.mp hmem with hearly | hlate
    · have hturn := (after_history cache w parties (s₁ ++ s₂ ++ s₃)).2.2.1 o' hearly
      rw [hthread', hthread] at hturn
      exact absurd hturn h.asksLater
    · rw [← hclock]
      exact (clock_le hrecords₄ o' hlate).1
  -- the reading of the writer, after the second stretch
  have hat : (after cache w parties (s₁ ++ s₂)).shared.clock < at' :=
    lt_of_age h.waits hnow (hage ttl rfl)
  have hinstant : s.event.op.instant? = some at' := by
    obtain ⟨ttl', shardCapacity, hop⟩ := hwrites
    rw [hop]
    rfl
  obtain ⟨o', ho', hthread', hclock⟩ := sampled hsplit hinstant
  have hassoc : s₁ ++ s₂ ++ s₃ ++ s₄ = s₁ ++ s₂ ++ (s₃ ++ s₄) := by simp
  rcases after_append cache w parties (s₁ ++ s₂) (s₃ ++ s₄) with ⟨n₃, hhist₃, -, -⟩
  rw [← hassoc] at hhist₃
  have hlate : o' ∈ n₃ := by
    have hmem : o' ∈ (after cache w parties (s₁ ++ s₂)).hist ++ n₃ := by
      rw [← hhist₃, hsplit]
      exact List.mem_append_left _ ho'
    rcases List.mem_append.mp hmem with hearly | hlate
    · have hle := (clock_le (after_history cache w parties (s₁ ++ s₂)).1 o' hearly).2
      rw [hclock] at hle
      exact absurd hle (not_le.mpr hat)
    · exact hlate
  obtain ⟨ttl', request', hparty, hsubject⟩ := query_of_writes h.noSets hs hwrites
  have hlater : s.thread ∉ s₁ := by
    rw [← hthread'] at hparty ⊢
    exact h.began_later hhist₃ hlate hparty hsubject
  -- so all its reads came after the first stretch
  obtain ⟨new, hnew, hreads⟩ := h.reads_after
  refine fresh_of_writes h.noSets hs hwrites fun o'' ho'' hthread'' r a hevent hr => ?_
  exact hreads o'' (steps_later hlater hnew ho'' hthread'') r a hevent hr

end Waited

/-- Over every interleaving, and without any invalidation: when what the subject
sees of the data has stopped changing and the queries of the subject that had
begun by then have returned, a query that starts more than its time to live
later returns what an uncached engine computes from that data. -/
theorem ttl_bounds_staleness [DefaultHasher] (cache : MemoryCache) (w : World)
    (parties : ℕ → Party) (s₁ s₂ s₃ s₄ : List ℕ) (i : ℕ) (ttl : Duration) (engine : Engine)
    (request : Request) (h : Waited cache w parties s₁ s₂ s₃ s₄ i ttl engine request)
    (res : Except Error Reply)
    (hres : (after cache w parties (s₁ ++ s₂ ++ s₃ ++ s₄)).threads i = .ret (.result res)) :
    res = engine.uncached (after cache w parties s₁).shared.source request := by
  have hpath := (after_history cache w parties (s₁ ++ s₂ ++ s₃ ++ s₄)).2.1 i
  rw [hres, h.asks] at hpath
  obtain ⟨new, hnew, hreads⟩ := h.reads_after
  have hnot : i ∉ s₁ := by
    intro hmem
    exact h.asksLater (List.mem_append_left _ (List.mem_append_left _ hmem))
  have hreliable : ∀ ev ∈ trail i (after cache w parties (s₁ ++ s₂ ++ s₃ ++ s₄)).hist,
      WorldOp.Looks ((after cache w parties s₁).shared.source.Footprint engine request.subject)
        ev.op → Reliable cache engine (after cache w parties s₁).shared.source request.subject
          ev.op ev.resp := by
    intro ev hev hlooks
    obtain ⟨o, ho, hthread, rfl⟩ := mem_trail.mp hev
    constructor
    · intro r a hevent _
      exact hreads o (steps_later hnot hnew ho hthread) r a hevent (hlooks.of_read hevent)
    · intro ttl' now grants hdecided
      have hown : ttl' = some ttl := (hpath.only ttl_query).1 _ hev ttl' hdecided.given.1
      subst hown
      exact h.fresh_of_found ho hthread hdecided
  have hreturned := ((triple_query_within request).path hpath hreliable).1
  exact Returned.result.inj hreturned

namespace Sample

/-- A handle whose entries live for five seconds. -/
def shortLived : MemoryCache := cache.withTtl 5

/-- The clerk asks, is dismissed, waits and asks again; nobody invalidates. -/
def waiting (k : ℕ) : Party :=
  if k = 1 then .mutate fun _ => dismissed.source
  else if k = 2 then .advance 10
  else .query (some 5) (Engine.build default) (.accessibleScope query)

theorem waiting_ne_set (k : ℕ) (ttl : Option Duration) (key : CacheKey)
    (grants : List EffectiveGrant) : waiting k ≠ .set ttl key grants := by
  unfold waiting
  split
  · nofun
  · split <;> nofun

end Sample

/-- The first query has read the clerk's grants when the clerk is dismissed, and
caches them afterwards. When they have expired, the second query computes them
anew. -/
theorem ttl_bounds_staleness_sample :
    (.ok (.scope .none) : Except Error Reply) =
      (Engine.build default).uncached
        (@after Sample.hasher Sample.shortLived Sample.world Sample.waiting
          [0, 0, 0, 0, 0, 0, 1]).shared.source (.accessibleScope Sample.query) := by
  refine @ttl_bounds_staleness Sample.hasher Sample.shortLived Sample.world Sample.waiting
    [0, 0, 0, 0, 0, 0, 1] [0, 0] [2] [3, 3, 3, 3, 3, 3, 3, 3] 3 5 (Engine.build default)
    (.accessibleScope Sample.query) ?_ _ rfl
  refine @Waited.mk Sample.hasher _ _ _ _ _ _ _ _ _ _ _ (fun _ => rfl) Sample.waiting_ne_set ?_ ?_
    (by decide) rfl (by decide)
  · intro new hnew o ho change hop
    have hquiet := quiet_of_kinds (by decide) new hnew o ho change
    exact absurd hop hquiet
  · intro k hk ttl' request' hparty _
    -- the change is no query, and the first query returns in the second stretch
    have hcases : k = 0 ∨ k = 1 := by simpa using hk
    rcases hcases with rfl | rfl
    · exact ⟨_, rfl⟩
    · cases hparty

end RsTenant
