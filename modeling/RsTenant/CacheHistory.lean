import RsTenant.MemoryCache
import RsTenant.Reference

/-! # The history behind a hit

Any number of calls on clones of one cache take turns, one lock section at a
time. Whatever the order, an entry that is found was written by the latest set
of its key, and no invalidation that covers the key has visited its shard since
(`entry_written`); a lookup that returns grants found such an entry in the
section that decided it. `lookup_history` puts this together.
-/

namespace RsTenant

open Interact

section

variable [DefaultHasher] {cache : MemoryCache}

/-! ## Where the sections run -/

/-- A section for a key runs on the shard that the key belongs to. -/
def Section.PlacedAt (cache : MemoryCache) (i : ℕ) : Section → Prop
  | .getRead key _ _ => i = cache.shardIndex key
  | .getWrite key _ _ => i = cache.shardIndex key
  | .set key _ _ _ _ => i = cache.shardIndex key
  | _ => True

/-- A step as calls of an engine or a cache make them: no change of the data,
no time passing, and each lock section on the right shard. -/
def WorldOp.OfCall (cache : MemoryCache) : WorldOp → Prop
  | .read _ => True
  | .now => True
  | .locked i act => act.PlacedAt cache i
  | .mutate _ => False
  | .advance _ => False

/-- The step takes the lock of the right shard, if any. -/
def WorldOp.Placed (cache : MemoryCache) : WorldOp → Prop
  | .locked i act => act.PlacedAt cache i
  | _ => True

theorem WorldOp.OfCall.placed {op : WorldOp} (h : op.OfCall cache) : op.Placed cache := by
  cases op with
  | locked i act => exact h
  | _ => trivial

/-- The steps that calls on clones of the cache are made of. -/
inductive MemoryCache.Performs (cache : MemoryCache) : WorldOp → Prop
  | read (r : SourceRead) : Performs cache (.read r)
  | now : Performs cache .now
  | getRead (key : CacheKey) (ttl : Option Duration) (now : Instant) :
      Performs cache (.locked (cache.shardIndex key) (.getRead key ttl now))
  | getWrite (key : CacheKey) (ttl : Option Duration) (now : Instant) :
      Performs cache (.locked (cache.shardIndex key) (.getWrite key ttl now))
  | set (hcapacity : cache.capacity ≠ 0) (key : CacheKey) (grants : List EffectiveGrant)
      (ttl : Option Duration) (now : Instant) :
      Performs cache (.locked (cache.shardIndex key)
        (.set key grants ttl now (cache.shardCapacity key)))
  | invalidate {i : ℕ} (hi : i < cache.shardCount) (inv : Invalidation) :
      Performs cache (.locked i inv.act)

omit [DefaultHasher] in
/-- Sections of an invalidation write nothing. -/
theorem not_sets_act (inv : Invalidation) (key : CacheKey) : ¬ inv.act.Sets key := by
  cases inv <;> exact id

theorem MemoryCache.Performs.ofCall {op : WorldOp} (h : cache.Performs op) : op.OfCall cache := by
  cases h with
  | invalidate hi inv => cases inv <;> trivial
  | _ => trivial

theorem performs_getEffectiveGrants (ttl : Option Duration) (key : CacheKey) :
    ((cache.cloneWith ttl).getEffectiveGrants key).Only cache.Performs :=
  (cache.cloneWith ttl).getEffectiveGrants_only key .now (fun now => .getRead key ttl now)
    fun now => .getWrite key ttl now

theorem performs_setEffectiveGrants (ttl : Option Duration) (key : CacheKey)
    (grants : List EffectiveGrant) :
    ((cache.cloneWith ttl).setEffectiveGrants key grants).Only cache.Performs :=
  (cache.cloneWith ttl).setEffectiveGrants_only key grants .now
    fun hcapacity now => @MemoryCache.Performs.set _ cache hcapacity key grants ttl now

theorem performs_eachShard (inv : Invalidation) :
    (MemoryCache.eachShard inv.act (List.range cache.shardCount)).Only cache.Performs :=
  MemoryCache.eachShard_only fun _ hi => .invalidate (List.mem_range.mp hi) inv

theorem performs_lower (ttl : Option Duration) (op : EngineSig.Op) :
    ((cache.cloneWith ttl).lower op).Only cache.Performs := by
  cases op with
  | read r => exact ⟨.read r, fun _ => trivial⟩
  | getEffectiveGrants t p sig => exact performs_getEffectiveGrants ttl _
  | setEffectiveGrants t p sig grants => exact performs_setEffectiveGrants ttl _ grants
  | invalidatePrincipal t p => exact performs_eachShard (.principal t p)
  | invalidateRole t r => exact performs_eachShard (.role t r)
  | invalidateTenant t => exact performs_eachShard (.tenant t)
  | invalidateAll => exact performs_eachShard .all

/-- An engine's call is made of such steps, with any handle under it. -/
theorem performs_subst_lower {α : Type} (p : Prog EngineSig α) (ttl : Option Duration) :
    (p.subst (cache.cloneWith ttl).lower).Only cache.Performs := by
  have hp : p.Only fun _ => True := by
    induction p with
    | ret a => trivial
    | call op k ih => exact ⟨trivial, ih⟩
  exact hp.subst fun op _ => performs_lower ttl op

/-- What a party does is made of such steps, of changes of the data and of time
passing. -/
theorem prog_only {P : WorldOp → Prop} (hcall : ∀ op, cache.Performs op → P op)
    (hmutate : ∀ change, P (.mutate change)) (hadvance : ∀ d, P (.advance d)) (party : Party) :
    (party.prog cache).Only P := by
  cases party with
  | get ttl key =>
    exact ((performs_getEffectiveGrants ttl key).mono hcall).bind fun _ => trivial
  | set ttl key grants =>
    exact ((performs_setEffectiveGrants ttl key grants).mono hcall).bind fun _ => trivial
  | query ttl engine request =>
    exact ((performs_subst_lower _ ttl).mono hcall).bind fun _ => trivial
  | invalidate ttl engine inv =>
    exact ((performs_subst_lower _ ttl).mono hcall).bind fun _ => trivial
  | mutate change => exact ⟨hmutate change, fun _ => trivial⟩
  | advance d => exact ⟨hadvance d, fun _ => trivial⟩

/-- Whatever a party does, it takes the lock of the right shard. -/
theorem placed_prog (party : Party) : (party.prog cache).Only (WorldOp.Placed cache) :=
  prog_only (fun _ hop => hop.ofCall.placed) (fun _ => trivial) (fun _ => trivial) party

/-! ## Where an entry comes from -/

/-- The step neither writes the key nor is an invalidation that covers it on
its shard. -/
def WorldOp.Keeps (cache : MemoryCache) (k : CacheKey) : WorldOp → Prop
  | .locked i act => ¬ act.Sets k ∧ (i = cache.shardIndex k → ¬ act.Drops k)
  | _ => True

/-- The step writes the entry `e` of the key `k`. -/
def WorldOp.Writes (cache : MemoryCache) (k : CacheKey) (e : CacheEntry) (op : WorldOp) : Prop :=
  ∃ ttl shardCapacity,
    op = .locked (cache.shardIndex k) (.set k e.grants ttl e.updatedAt shardCapacity)

/-- The latest step on the key wrote the entry `e`, which nothing dropped
since. -/
def Written (cache : MemoryCache) (k : CacheKey) (e : CacheEntry)
    (l : List (Occ WorldSig World)) : Prop :=
  ∃ l₁ s l₂, l = l₁ ++ s :: l₂ ∧ WorldOp.Writes cache k e s.event.op ∧
    ∀ o ∈ l₂, WorldOp.Keeps cache k o.event.op

variable {k : CacheKey} {e : CacheEntry}

/-- An entry found after a step was written by it, or it was there before and
the step keeps it. -/
theorem entry_step {op : WorldOp} {w : World} (hplaced : op.Placed cache)
    (h : (World.handle op w).2.entry (cache.shardIndex k) k = some e) :
    op.Writes cache k e ∨ (w.entry (cache.shardIndex k) k = some e ∧ op.Keeps cache k) := by
  cases op with
  | locked i act =>
    by_cases hi : i = cache.shardIndex k
    · subst hi
      rw [World.entry_locked_self] at h
      rcases Section.entry_after h with ⟨ttl, shardCapacity, rfl⟩ | ⟨hbefore, hsets, hdrops⟩
      · exact .inl ⟨ttl, shardCapacity, rfl⟩
      · exact .inr ⟨hbefore, hsets, fun _ => hdrops⟩
    · rw [World.entry_locked_ne w (Ne.symm hi)] at h
      refine .inr ⟨h, fun hsets => ?_, fun hi' => absurd hi' hi⟩
      -- a set of the key would have taken the lock of its shard
      cases act with
      | set key grants ttl now shardCapacity =>
        have hkey : key = k := hsets
        subst hkey
        exact hi hplaced
      | _ => exact hsets
  | _ => exact .inr ⟨h, trivial⟩

/-- An entry found after a history was written by it, or it was there before
and every step keeps it. -/
theorem entry_written {l : List (Occ WorldSig World)} {w w' : World}
    (hrecords : Records World.handle w l w') (hplaced : ∀ o ∈ l, o.event.op.Placed cache)
    (h : w'.entry (cache.shardIndex k) k = some e) :
    Written cache k e l ∨
      (w.entry (cache.shardIndex k) k = some e ∧ ∀ o ∈ l, o.event.op.Keeps cache k) := by
  induction l generalizing w with
  | nil =>
    have hw : w = w' := hrecords
    exact .inr ⟨hw ▸ h, by simp⟩
  | cons o l ih =>
    rcases hrecords with ⟨hpre, -, hrest⟩
    rw [List.forall_mem_cons] at hplaced
    rcases ih hrest hplaced.2 with ⟨l₁, s, l₂, rfl, hs, hl₂⟩ | ⟨hafter, hkeeps⟩
    · exact .inl ⟨o :: l₁, s, l₂, rfl, hs, hl₂⟩
    · rcases entry_step hplaced.1 hafter with hwrites | ⟨hbefore, hkeep⟩
      · exact .inl ⟨[], o, l, rfl, hwrites, hkeeps⟩
      · refine .inr ⟨hbefore, ?_⟩
        rw [List.forall_mem_cons]
        exact ⟨hkeep, hkeeps⟩

/-! ## Which calls write -/

theorem WorldOp.Writes.sets {i : ℕ} {act : Section} {key : CacheKey} {e : CacheEntry}
    (h : WorldOp.Writes cache key e (.locked i act)) : act.Sets key := by
  rcases h with ⟨ttl, shardCapacity, heq⟩
  injection heq with _ hact
  rw [hact]
  rfl

theorem not_writes_eachShard (inv : Invalidation) (shards : List ℕ) :
    (MemoryCache.eachShard inv.act shards).Only
      fun step : WorldOp => ∀ key e, ¬ step.Writes cache key e :=
  MemoryCache.eachShard_only fun _ _ key _ h => not_sets_act inv key h.sets

/-- The only step that writes an entry is the one of a set, with what it was
given. -/
theorem writes_lower (ttl : Option Duration) (op : EngineSig.Op) :
    ((cache.cloneWith ttl).lower op).Only fun step : WorldOp => ∀ key e, step.Writes cache key e →
      op = .setEffectiveGrants key.tenant key.principal key.configSignature e.grants := by
  have hinv : ∀ (inv : Invalidation) (shards : List ℕ),
      (MemoryCache.eachShard inv.act shards).Only fun step : WorldOp =>
        ∀ key e, step.Writes cache key e →
        op = .setEffectiveGrants key.tenant key.principal key.configSignature e.grants :=
    fun inv shards => (not_writes_eachShard inv shards).mono
      fun step hstep key e hwrites => absurd hwrites (hstep key e)
  cases op with
  | read r => exact ⟨fun key e ⟨_, _, h⟩ => (nomatch h), fun _ => trivial⟩
  | getEffectiveGrants t p sig =>
    -- reading the clock and looking up are no sets
    exact (cache.cloneWith ttl).getEffectiveGrants_only ⟨t, p, sig⟩
      (fun key e ⟨_, _, h⟩ => (nomatch h)) (fun now key e h => absurd h.sets id)
      fun now key e h => absurd h.sets id
  | setEffectiveGrants t p sig grants =>
    refine (cache.cloneWith ttl).setEffectiveGrants_only ⟨t, p, sig⟩ grants
      (fun key e ⟨_, _, h⟩ => (nomatch h)) fun _ now => ?_
    rintro key e ⟨_, _, heq⟩
    injection heq with _ hact
    injection hact with hkey hgrants _ _ _
    subst hkey hgrants
    rfl
  | invalidatePrincipal t p => exact hinv (.principal t p) _
  | invalidateRole t r => exact hinv (.role t r) _
  | invalidateTenant t => exact hinv (.tenant t) _
  | invalidateAll => exact hinv .all _

/-- Of the parties that leave the cache to the engines, only queries write
entries, each those of its own subject and configuration. -/
theorem writes_prog {party : Party} (hset : ∀ ttl key grants, party ≠ .set ttl key grants) :
    (party.prog cache).Only fun step : WorldOp => ∀ key e, step.Writes cache key e →
      ∃ ttl engine request, party = .query ttl engine request ∧
        key.subject = request.subject ∧ key.configSignature = engine.configSignature := by
  cases party with
  | get ttl key =>
    refine Prog.Only.bind ?_ fun _ => trivial
    refine (writes_lower ttl (.getEffectiveGrants key.tenant key.principal
      key.configSignature)).mono ?_
    intro step hstep key' e hwrites
    cases hstep key' e hwrites
  | set ttl key grants => exact absurd rfl (hset ttl key grants)
  | query ttl engine request =>
    refine Prog.Only.bind ((only_serve request).subst fun op hop => ?_) fun _ => trivial
    refine (writes_lower ttl op).mono fun step hstep key e hwrites => ?_
    have hop' := hstep key e hwrites
    subst hop'
    rcases hop with ⟨ht, hp, hsig⟩
    exact ⟨ttl, engine, request, rfl, AuthSubject.ext ht hp, hsig⟩
  | invalidate ttl engine inv =>
    show (((engine.invalidate inv).subst (cache.cloneWith ttl).lower) >>= _).Only _
    rw [Engine.invalidate_lower]
    have hnone : (MemoryCache.eachShard inv.act (List.range cache.shardCount)).Only
        fun step : WorldOp => ∀ key e, ¬ step.Writes cache key e := not_writes_eachShard inv _
    refine Prog.Only.bind (hnone.mono ?_) fun _ => trivial
    exact fun step hstep key e hwrites => absurd hwrites (hstep key e)
  | mutate change => exact ⟨fun key e ⟨_, _, h⟩ => (nomatch h), fun _ => trivial⟩
  | advance d => exact ⟨fun key e ⟨_, _, h⟩ => (nomatch h), fun _ => trivial⟩

/-! ## How a lookup is decided -/

/-- The lock section in which a lookup that sampled `now` found `grants`. -/
def DecidedBy (cache : MemoryCache) (ttl : Option Duration) (key : CacheKey) (now : Instant)
    (grants : List EffectiveGrant) (ev : Event WorldSig) : Prop :=
  ev = ⟨.locked (cache.shardIndex key) (.getRead key ttl now), .hit grants⟩ ∨
    ev = ⟨.locked (cache.shardIndex key) (.getWrite key ttl now), some grants⟩

/-- The last step of a lookup that returns grants decided it. -/
theorem getEffectiveGrants_path {ttl : Option Duration} {key : CacheKey}
    {tr : List (Event WorldSig)} {grants : List EffectiveGrant}
    (h : Prog.Path ((cache.cloneWith ttl).getEffectiveGrants key) tr (.ret (some grants))) :
    ∃ now mid ev, tr = ⟨.now, now⟩ :: (mid ++ [ev]) ∧ DecidedBy cache ttl key now grants ev := by
  rcases MemoryCache.getEffectiveGrants_cases h with ⟨-, hnone⟩ | ⟨now, ⟨found, hfound, rfl⟩ |
    ⟨hnone, -⟩ | rfl⟩
  · cases hnone
  · cases hfound
    exact ⟨now, [], _, rfl, .inl rfl⟩
  · cases hnone
  · exact ⟨now, [_], _, rfl, .inr rfl⟩

/-- In the section that decided a lookup, the shard had the entry, and it had
not expired at the instant sampled. -/
theorem entry_of_decided {o : Occ WorldSig World} {ttl : Option Duration} {key : CacheKey}
    {now : Instant} {grants : List EffectiveGrant}
    (hdecided : DecidedBy cache ttl key now grants o.event)
    (hresp : o.event.resp = (World.handle o.event.op o.pre).1) :
    ∃ at', o.pre.entry (cache.shardIndex key) key = some ⟨grants, at'⟩ ∧
      ∀ d, ttl = some d → now - at' ≤ d := by
  rcases o with ⟨i, w, ev⟩
  rcases hdecided with rfl | rfl
  · rcases CacheState.getRead_hit hresp.symm with ⟨e, hentry, rfl, hexpired⟩
    exact ⟨e.updatedAt, hentry, fun d hd => e.age_le hexpired hd⟩
  · rcases CacheState.getWrite_some hresp.symm with ⟨e, hentry, rfl, hexpired⟩
    exact ⟨e.updatedAt, hentry, fun d hd => e.age_le hexpired hd⟩

/-- A lookup is decided by the entry that the latest set of its key wrote. -/
theorem written_of_decided {w w' : World} {l₁ l₂ : List (Occ WorldSig World)}
    {d : Occ WorldSig World} {ttl : Option Duration} {key : CacheKey} {now : Instant}
    {grants : List EffectiveGrant} (hw : w.Fresh)
    (hrecords : Records World.handle w (l₁ ++ d :: l₂) w')
    (hplaced : ∀ o ∈ l₁ ++ d :: l₂, o.event.op.Placed cache)
    (hdecided : DecidedBy cache ttl key now grants d.event) :
    ∃ at', Written cache key ⟨grants, at'⟩ l₁ ∧ ∀ d, ttl = some d → now - at' ≤ d := by
  rcases records_append.mp hrecords with ⟨m, hbefore, hpre, hresp, -⟩
  subst hpre
  rcases entry_of_decided hdecided hresp with ⟨at', hentry, hage⟩
  have hplaced₁ : ∀ o ∈ l₁, o.event.op.Placed cache := fun o ho =>
    hplaced o (List.mem_append_left _ ho)
  rcases entry_written hbefore hplaced₁ hentry with hwritten | ⟨hstart, -⟩
  · exact ⟨at', hwritten, hage⟩
  · -- the cache started out empty
    simp [World.entry, hw _, CacheState.empty] at hstart

/-! ## Runs -/

section Runs

variable {w : World} {parties : ℕ → Party} {sched : List ℕ}

/-- The history of a run: it records what happened to the world, each party
followed its program, and every step took the lock of the right shard. -/
theorem after_history (cache : MemoryCache) (w : World) (parties : ℕ → Party) (sched : List ℕ) :
    Records World.handle w (after cache w parties sched).hist (after cache w parties sched).shared ∧
      (∀ i, Prog.Path ((parties i).prog cache) (trail i (after cache w parties sched).hist)
        ((after cache w parties sched).threads i)) ∧
      (∀ o ∈ (after cache w parties sched).hist, o.thread ∈ sched) ∧
      ∀ o ∈ (after cache w parties sched).hist, o.event.op.Placed cache := by
  obtain ⟨new, hhist, hrecords, hpath, hturn⟩ :=
    (launch cache w parties).run_history World.handle sched
  have hnew : (after cache w parties sched).hist = new := hhist.trans (List.nil_append new)
  rw [hnew]
  refine ⟨hrecords, hpath, hturn, fun o ho => ?_⟩
  have hmem : o.event ∈ trail o.thread new := mem_trail.mpr ⟨o, ho, rfl, rfl⟩
  exact ((hpath o.thread).only (placed_prog _)).1 _ hmem

/-- Without sets by hand an entry is written by a query of its subject, by an engine
of its configuration. -/
theorem query_of_write (hsets : ∀ k ttl key grants, parties k ≠ .set ttl key grants)
    {s : Occ WorldSig World} (hs : s ∈ (after cache w parties sched).hist) {key : CacheKey}
    {e : CacheEntry} (hwrites : s.event.op.Writes cache key e) :
    ∃ ttl engine request, parties s.thread = .query ttl engine request ∧
      key.subject = request.subject ∧ key.configSignature = engine.configSignature := by
  have hpath := (after_history cache w parties sched).2.1 s.thread
  have hmem : s.event ∈ trail s.thread (after cache w parties sched).hist :=
    mem_trail.mpr ⟨s, hs, rfl, rfl⟩
  exact (hpath.only (writes_prog (hsets s.thread))).1 _ hmem _ _ hwrites

/-- Going on only adds to the history. -/
theorem after_append (cache : MemoryCache) (w : World) (parties : ℕ → Party)
    (sched later : List ℕ) :
    ∃ new, (after cache w parties (sched ++ later)).hist =
        (after cache w parties sched).hist ++ new ∧
      Records World.handle (after cache w parties sched).shared new
        (after cache w parties (sched ++ later)).shared ∧
      ∀ o ∈ new, o.thread ∈ later := by
  obtain ⟨new, hhist, hrecords, -, hturn⟩ :=
    (after cache w parties sched).run_history World.handle later
  have happend : after cache w parties (sched ++ later) =
      (after cache w parties sched).run World.handle later :=
    Pool.run_append _ _ _ _
  rw [happend]
  exact ⟨new, hhist, hrecords, hturn⟩

/-- A thread that has not had a turn yet takes its steps later. -/
theorem steps_later {k : ℕ} (hk : k ∉ sched) {sched' : List ℕ} {new : List (Occ WorldSig World)}
    (hhist : (after cache w parties sched').hist = (after cache w parties sched).hist ++ new)
    {o : Occ WorldSig World} (ho : o ∈ (after cache w parties sched').hist)
    (hthread : o.thread = k) : o ∈ new := by
  rw [hhist] at ho
  rcases List.mem_append.mp ho with hearly | hlate
  · have hturn := (after_history cache w parties sched).2.2.1 o hearly
    rw [hthread] at hturn
    exact absurd hturn hk
  · exact hlate

omit [DefaultHasher] in
/-- An invalidation that has returned has visited every shard. -/
theorem eachShard_path {act : Section} {shards : List ℕ} {tr : List (Event WorldSig)}
    (h : Prog.Path (MemoryCache.eachShard act shards) tr (.ret ())) :
    ∀ i ∈ shards, ∃ r, (⟨.locked i act, r⟩ : Event WorldSig) ∈ tr := by
  induction shards generalizing tr with
  | nil => simp
  | cons i shards ih =>
    cases h with
    | step r h =>
      intro j hj
      rcases List.mem_cons.mp hj with rfl | hj
      · exact ⟨r, List.mem_cons_self⟩
      · rcases ih h j hj with ⟨r', hr'⟩
        exact ⟨r', List.mem_cons_of_mem _ hr'⟩

theorem invalidation_visits {j : ℕ} {ttl : Option Duration} {engine : Engine} {inv : Invalidation}
    (hj : parties j = .invalidate ttl engine inv)
    (hret : (after cache w parties sched).threads j = .ret .done) (key : CacheKey) :
    ∃ v ∈ (after cache w parties sched).hist, v.thread = j ∧
      v.event.op = .locked (cache.shardIndex key) inv.act := by
  have hpath := (after_history cache w parties sched).2.1 j
  rw [hret, hj] at hpath
  rcases Prog.Path.of_bind hpath with ⟨tr₁, tr₂, u, htrail, hpath₁, -⟩
  rw [Engine.invalidate_lower] at hpath₁
  have hshard : cache.shardIndex key ∈ List.range cache.shardCount :=
    List.mem_range.mpr (cache.shardIndex_lt key)
  rcases eachShard_path hpath₁ _ hshard with ⟨r, hr⟩
  have hmem : (⟨.locked (cache.shardIndex key) inv.act, r⟩ : Event WorldSig) ∈
      trail j (after cache w parties sched).hist := by
    rw [htrail]
    exact List.mem_append_left _ hr
  rcases mem_trail.mp hmem with ⟨v, hv, hthread, hevent⟩
  exact ⟨v, hv, hthread, by rw [hevent]⟩

/-- A lookup that returned grants, with the set that wrote them. -/
theorem hit_history {i : ℕ} {ttl : Option Duration} {key : CacheKey}
    {grants : List EffectiveGrant} (hw : w.Fresh) (hi : parties i = .get ttl key)
    (hret : (after cache w parties sched).threads i = .ret (.lookup (some grants))) :
    ∃ l₁ s l₂ d l₃ at' now rest,
      (after cache w parties sched).hist = l₁ ++ s :: (l₂ ++ d :: l₃) ∧
      s.event.op.Writes cache key ⟨grants, at'⟩ ∧
      (∀ o ∈ l₂, o.event.op.Keeps cache key) ∧
      d.thread = i ∧ DecidedBy cache ttl key now grants d.event ∧
      trail i (after cache w parties sched).hist = ⟨.now, now⟩ :: rest ∧
      ∀ d, ttl = some d → now - at' ≤ d := by
  rcases after_history cache w parties sched with ⟨hrecords, hpaths, -, hplaced⟩
  have hpath := hpaths i
  rw [hret, hi] at hpath
  rcases Prog.Path.of_bind hpath with ⟨tr₁, tr₂, cached, htrail, hpath₁, hpath₂⟩
  rcases hpath₂.of_ret with ⟨rfl, hcached⟩
  cases hcached
  rcases getEffectiveGrants_path hpath₁ with ⟨now, mid, ev, rfl, hdecided⟩
  rw [List.append_nil] at htrail
  -- the place of the deciding section in the history
  have hsplit : trail i (after cache w parties sched).hist =
      (⟨.now, now⟩ :: mid) ++ ev :: [] := htrail
  rcases trail_split hsplit with ⟨before, d, l₃, hhist, hthread, rfl, -, -⟩
  rw [hhist] at hrecords hplaced
  obtain ⟨at', ⟨l₁, s, l₂, rfl, hs, hkeeps⟩, hage⟩ :=
    written_of_decided hw hrecords hplaced hdecided
  refine ⟨l₁, s, l₂, d, l₃, at', now, mid ++ [d.event], ?_, hs, hkeeps, hthread, hdecided, htrail,
    hage⟩
  rw [hhist, List.append_assoc, List.cons_append]

end Runs

end

/-! ## What callers get -/

/-- Over every interleaving of calls on clones of one cache that starts out
empty.

A lookup that returned grants got what the latest set of the key before the
deciding section wrote; no invalidation that covers the key visited its shard
in between, and at the instant the lookup sampled the entry was no older than
the lookup's TTL.

So once a covering invalidation has returned, a lookup that starts later finds
nothing, unless a set of the key ran on the shard after the invalidation did. -/
theorem lookup_history [DefaultHasher] (cache : MemoryCache) (w : World) (hw : w.Fresh)
    (parties : ℕ → Party) (sched later : List ℕ) :
    (∀ i ttl key grants, parties i = .get ttl key →
      (after cache w parties sched).threads i = .ret (.lookup (some grants)) →
      ∃ l₁ s l₂ d l₃ at' now rest,
        (after cache w parties sched).hist = l₁ ++ s :: (l₂ ++ d :: l₃) ∧
        s.event.op.Writes cache key ⟨grants, at'⟩ ∧
        (∀ o ∈ l₂, o.event.op.Keeps cache key) ∧
        d.thread = i ∧ DecidedBy cache ttl key now grants d.event ∧
        trail i (after cache w parties sched).hist = ⟨.now, now⟩ :: rest ∧
        ∀ d, ttl = some d → now - at' ≤ d) ∧
    (∀ j ttl engine inv i ttl' key cached, parties j = .invalidate ttl engine inv →
      inv.Covers key.subject → (after cache w parties sched).threads j = .ret .done →
      parties i = .get ttl' key → i ∉ sched →
      (after cache w parties (sched ++ later)).threads i = .ret (.lookup cached) →
      (∀ l₁ v l₂, (after cache w parties (sched ++ later)).hist = l₁ ++ v :: l₂ →
        v.thread = j → v.event.op = .locked (cache.shardIndex key) inv.act →
        ∀ o ∈ l₂, ∀ shard act, o.event.op = .locked shard act → ¬ act.Sets key) →
      cached = none) := by
  refine ⟨fun i ttl key grants hi hret => hit_history hw hi hret, ?_⟩
  intro j ttl engine inv i ttl' key cached hj hcovers hdone hi hidle hret hnoset
  cases cached with
  | none => rfl
  | some grants =>
    exfalso
    rcases after_append cache w parties sched later with ⟨new, hhist, -, -⟩
    rcases invalidation_visits hj hdone key with ⟨v, hv, hthread, hvop⟩
    rcases List.append_of_mem hv with ⟨a, b, hab⟩
    obtain ⟨l₁, s, l₂, d, l₃, at', now, rest, hset, ⟨ttl'', shardCapacity, hs⟩, hkeeps, hd, -⟩ :=
      hit_history hw hi hret
    have hinv : (after cache w parties (sched ++ later)).hist = a ++ v :: (b ++ new) := by
      rw [hhist, hab, List.append_assoc, List.cons_append]
    have hdrops : inv.act.Drops key := (inv.drops_iff key).mpr hcovers
    have hearly : ∀ o ∈ a ++ v :: b, o.thread ≠ i := fun o ho heq =>
      hidle (heq ▸ (after_history cache w parties sched).2.2.1 o (hab ▸ ho))
    -- where the invalidation visited the shard, relative to the set and to the deciding section
    rcases split_cases (hinv.symm.trans hset) with ⟨-, rfl, -⟩ | ⟨n, rfl, hn⟩ | ⟨n, rfl, hn⟩
    · -- it is not the set
      rw [hvop] at hs
      injection hs with _ hact
      rw [hact] at hdrops
      exact hdrops
    · -- before the set: but no set came after it
      have hmem : s ∈ b ++ new := by
        rw [hn]
        exact List.mem_append_right _ List.mem_cons_self
      exact hnoset a v _ hinv hthread hvop s hmem _ _ hs rfl
    · rcases split_cases hn with ⟨-, rfl, -⟩ | ⟨n', rfl, -⟩ | ⟨n', rfl, -⟩
      · -- it is not the deciding section
        exact hearly d (List.mem_append_right _ List.mem_cons_self) hd
      · -- after the deciding section: but the lookup had not started
        refine hearly d (List.mem_append_left _ ?_) hd
        exact List.mem_append_right _ (List.mem_cons_of_mem _ (List.mem_append_right _
          List.mem_cons_self))
      · -- in between: but nothing there drops the entry
        have hkeep := hkeeps v (List.mem_append_right _ List.mem_cons_self)
        rw [hvop] at hkeep
        exact hkeep.2 rfl hdrops

namespace Sample

/-- Every key in the first shard. -/
@[reducible] def hasher : DefaultHasher := ⟨fun _ => 0⟩

def cache : MemoryCache := MemoryCache.new none 2

def key : CacheKey := ⟨tenant, principal, (default : EngineConfig).signature⟩

def grants : List EffectiveGrant := [⟨clerk, read, .tenant⟩]

/-- An empty cache next to the sample data. -/
def world : World := ⟨facts.source, fun _ => .empty, 0⟩

/-- Somebody sets the clerk's grants, and everybody else looks them up. -/
def readers (i : ℕ) : Party := if i = 0 then .set none key grants else .get (some 5) key

end Sample

theorem lookup_history_sample :
    ∃ l₁ s l₂ d l₃ at' now rest,
      (@after Sample.hasher Sample.cache Sample.world Sample.readers [0, 1, 0, 1]).hist =
        l₁ ++ s :: (l₂ ++ d :: l₃) ∧
      @WorldOp.Writes Sample.hasher Sample.cache Sample.key ⟨Sample.grants, at'⟩ s.event.op ∧
      (∀ o ∈ l₂, @WorldOp.Keeps Sample.hasher Sample.cache Sample.key o.event.op) ∧
      d.thread = 1 ∧ @DecidedBy Sample.hasher Sample.cache (some 5) Sample.key now Sample.grants
        d.event ∧
      trail 1 (@after Sample.hasher Sample.cache Sample.world Sample.readers [0, 1, 0, 1]).hist =
        ⟨.now, now⟩ :: rest ∧
      ∀ d, some 5 = some d → now - at' ≤ d :=
  (@lookup_history Sample.hasher Sample.cache Sample.world (fun _ => rfl) Sample.readers
    [0, 1, 0, 1] []).1 1 (some 5) Sample.key Sample.grants rfl rfl

end RsTenant
