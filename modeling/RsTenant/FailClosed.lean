import RsTenant.CacheHistory

/-! # Queries fail closed

Whatever the source answers, from read to read, and whatever the cache holds: a
query that meets a failed read or a refused expansion returns that error there
and then, and what it had gathered so far goes neither into the reply nor into
the cache (`fail_closed`).
-/

namespace RsTenant

open Interact

/-! ## Every assigned role is expanded -/

section Expanded

variable {S : Sig} {Role Sc : Type} [DecidableEq Role] {reads : RoleReads S Role}

/-- Somewhere in the trace the role is expanded, successfully. -/
def ExpandedIn (reads : RoleReads S Role) (tr : List (Event S)) (role : Role) : Prop :=
  ∃ pre exp post roles, tr = pre ++ (exp ++ post) ∧
    Prog.Path (reads.rolesOf role).run exp (.ret (.ok roles))

theorem ExpandedIn.prepend {tr : List (Event S)} {role : Role} (h : ExpandedIn reads tr role)
    (before : List (Event S)) : ExpandedIn reads (before ++ tr) role := by
  rcases h with ⟨pre, exp, post, roles, rfl, hexp⟩
  exact ⟨before ++ pre, exp, post, roles, (List.append_assoc _ _ _).symm, hexp⟩

theorem ExpandedIn.append {tr : List (Event S)} {role : Role} (h : ExpandedIn reads tr role)
    (after : List (Event S)) : ExpandedIn reads (tr ++ after) role := by
  rcases h with ⟨pre, exp, post, roles, rfl, hexp⟩
  refine ⟨pre, exp, post ++ after, roles, ?_, hexp⟩
  simp only [List.append_assoc]

/-- The loops do not finish without expanding every assigned role. -/
theorem expanded_assignmentGrants {assignments : List (Assignment Role Sc)}
    {grants out : List (ScopedGrant Role Sc)} {tr : List (Event S)}
    (h : Prog.Path (reads.assignmentGrants assignments grants).run tr (.ret (.ok out))) :
    ∀ a ∈ assignments, ExpandedIn reads tr a.role := by
  induction assignments generalizing grants tr with
  | nil => simp
  | cons a assignments ih =>
    rcases Fallible.path_ok h with ⟨exp, rest, roles, rfl, hexp, hrest⟩
    rcases Fallible.path_ok hrest with ⟨perms, rest, grants', rfl, -, hrest⟩
    rw [List.forall_mem_cons]
    refine ⟨⟨[], exp, perms ++ rest, roles, rfl, hexp⟩, fun b hb => ?_⟩
    exact ((ih hrest b hb).prepend perms).prepend exp

end Expanded

variable {engine : Engine} {subject : AuthSubject}

/-- The answer to the read of the subject's assignments. -/
def assignmentsRead (subject : AuthSubject) (assignments : List RoleAssignment) :
    Event EngineSig :=
  ⟨.read (.roleAssignments subject), .ok assignments⟩

/-- A part of a query in which the grants are computed, if at all, from
assignments whose roles are all expanded. -/
def ExpandsAll (engine : Engine) (subject : AuthSubject) {α : Type}
    (x : Fallible EngineSig Error α) :
    Prop :=
  ∀ tr a assignments, Prog.Path x.run tr (.ret (.ok a)) → assignmentsRead subject assignments ∈ tr →
    ∀ b ∈ assignments, ExpandedIn (engine.roleReads subject.tenant) tr b.role

theorem ExpandsAll.bind {α β : Type} {x : Fallible EngineSig Error α}
    {f : α → Fallible EngineSig Error β} (hx : ExpandsAll engine subject x)
    (hf : ∀ a, ExpandsAll engine subject (f a)) : ExpandsAll engine subject (x >>= f) := by
  intro tr b assignments h hmem a ha
  rcases Fallible.path_ok h with ⟨tr₁, tr₂, v, rfl, h₁, h₂⟩
  rcases List.mem_append.mp hmem with hmem | hmem
  · exact (hx tr₁ v assignments h₁ hmem a ha).append tr₂
  · exact (hf v tr₂ b assignments h₂ hmem a ha).prepend tr₁

/-- What does not read assignments has nothing to expand. -/
theorem ExpandsAll.of_only {α : Type} {x : Fallible EngineSig Error α}
    (hx : x.run.Only fun op => op ≠ EngineOp.read (.roleAssignments subject)) :
    ExpandsAll engine subject x := by
  intro tr a assignments h hmem
  exact absurd rfl ((h.only hx).1 _ hmem)

theorem expandsAll_computeGrants : ExpandsAll engine subject (engine.computeGrants subject) := by
  intro tr grants assignments h hmem
  rcases Fallible.path_ok h with ⟨tr₁, tr₂, read, rfl, hread, hloops⟩
  have htr₁ := path_readSource hread
  subst htr₁
  have hread : assignments = read := by
    rcases List.mem_append.mp hmem with hmem | hmem
    · rw [List.mem_singleton] at hmem
      cases hmem
      rfl
    · -- the loops read roles only
      have honly : ((engine.roleReads subject.tenant).assignmentGrants read []).run.Only
          fun op => op ≠ EngineOp.read (.roleAssignments subject) := by
        apply only_assignmentGrants
        · exact fun r => ⟨nofun, fun _ => trivial⟩
        · exact fun r => ⟨nofun, fun _ => trivial⟩
      exact absurd rfl ((hloops.only honly).1 _ hmem)
  subst hread
  intro a ha
  exact (expanded_assignmentGrants hloops a ha).prepend _

/-- A query that succeeds has expanded every role that it found assigned. -/
theorem expandsAll_serve (request : Request) :
    ExpandsAll engine request.subject (engine.serve request) := by
  rw [engine.serve_eq, map_eq_pure_bind]
  refine ExpandsAll.bind ?_ fun _ => ExpandsAll.of_only trivial
  apply resolveScope_cases fun {α} x => ExpandsAll engine request.subject x
  · exact fun a => ExpandsAll.of_only trivial
  · intro α r k _ hgrant hk
    refine ExpandsAll.bind (ExpandsAll.of_only ⟨?_, fun _ => trivial⟩) hk
    rintro ⟨⟩
    exact hgrant trivial
  · refine ExpandsAll.bind ?_ fun _ => ExpandsAll.of_only trivial
    refine ExpandsAll.bind (ExpandsAll.of_only ⟨nofun, fun _ => trivial⟩) fun cached => ?_
    cases cached with
    | some grants => exact ExpandsAll.of_only trivial
    | none =>
      refine ExpandsAll.bind expandsAll_computeGrants fun grants => ?_
      exact ExpandsAll.of_only ⟨nofun, fun _ => trivial⟩

/-! ## What a failed query leaves in the cache -/

section Entries

variable [DefaultHasher] {cache : MemoryCache}

/-- One step of a query that nobody else interferes with: the source answers
what it likes, and time may pass. -/
def QueryStep : (op : WorldSig.Op) → World → WorldSig.Resp op → World → Prop
  | .read _, w, _, w' => w' = w
  | .now, w, now, w' => w.clock ≤ now ∧ w' = { w with clock := now }
  | op, w, r, w' => (r, w') = World.handle op w

/-- All that is different is that an entry of the key, expired for the handle,
may be gone. -/
def OnlyExpired (cache : MemoryCache) (key : CacheKey) (w w' : World) : Prop :=
  w.clock ≤ w'.clock ∧ ∀ i k, w'.entry i k = w.entry i k ∨
    (i = cache.shardIndex key ∧ k = key ∧ w'.entry i k = none ∧
      ∃ e now, w.entry i k = some e ∧ w.clock ≤ now ∧ now ≤ w'.clock ∧
        e.isExpiredFor cache.ttl now = true)

theorem OnlyExpired.refl (key : CacheKey) (w : World) : OnlyExpired cache key w w :=
  ⟨le_refl _, fun _ _ => .inl rfl⟩

theorem OnlyExpired.trans {key : CacheKey} {w w₁ w' : World} (h₁ : OnlyExpired cache key w w₁)
    (h₂ : OnlyExpired cache key w₁ w') : OnlyExpired cache key w w' := by
  refine ⟨h₁.1.trans h₂.1, fun i k => ?_⟩
  rcases h₁.2 i k with hsame | ⟨hi, hk, hgone, e, now, hentry, hstart, hend, hexpired⟩
  · rcases h₂.2 i k with hsame' | ⟨hi, hk, hgone, e, now, hentry, hstart, hend, hexpired⟩
    · exact .inl (hsame'.trans hsame)
    · exact .inr ⟨hi, hk, hgone, e, now, hsame ▸ hentry, h₁.1.trans hstart, hend, hexpired⟩
  · have hgone' : w'.entry i k = none := by
      rcases h₂.2 i k with hsame' | ⟨-, -, hgone', -⟩
      · exact hsame'.trans hgone
      · exact hgone'
    exact .inr ⟨hi, hk, hgone', e, now, hentry, hstart, hend.trans h₂.1, hexpired⟩

theorem onlyExpired_now {key : CacheKey} {w : World} {now : Instant} (h : w.clock ≤ now) :
    OnlyExpired cache key w { w with clock := now } :=
  ⟨h, fun _ _ => .inl rfl⟩

/-- The read lock leaves every entry alone. -/
theorem onlyExpired_getRead (key : CacheKey) (w : World) (now : Instant) :
    OnlyExpired cache key w
      (World.handle (.locked (cache.shardIndex key) (.getRead key cache.ttl now)) w).2 := by
  refine ⟨le_refl _, fun i k => .inl ?_⟩
  by_cases hi : i = cache.shardIndex key
  · rw [hi, World.entry_locked_self]
    rfl
  · exact World.entry_locked_ne _ hi _ _

/-- The write lock removes the entry of its key if it has expired. -/
theorem onlyExpired_getWrite (key : CacheKey) (w : World) :
    OnlyExpired cache key w
      (World.handle (.locked (cache.shardIndex key) (.getWrite key cache.ttl w.clock)) w).2 := by
  refine ⟨le_refl _, fun i k => ?_⟩
  by_cases hi : i = cache.shardIndex key
  · subst hi
    rw [World.entry_locked_self]
    rcases CacheState.getWrite_entries (w.shards (cache.shardIndex key)) key cache.ttl w.clock k
      with hsame | ⟨hk, hgone, e, hentry, hexpired⟩
    · exact .inl hsame
    · exact .inr ⟨rfl, hk, hgone, e, w.clock, hentry, le_refl _, le_refl _, hexpired⟩
  · exact .inl (World.entry_locked_ne _ hi _ _)

/-- A lookup changes nothing but that it may remove its key's expired entry. -/
theorem onlyExpired_get {key : CacheKey} {w w' : World} {tr : List (Event WorldSig)}
    {cached : Option (List EffectiveGrant)}
    (hpath : Prog.Path (cache.getEffectiveGrants key) tr (.ret cached))
    (hreplay : Prog.Replay QueryStep w tr w') : OnlyExpired cache key w w' := by
  -- the clock moves on, and then the read lock leaves the entries alone
  have hread : ∀ {now : Instant} {phase : ReadPhase} {tr : List (Event WorldSig)},
      Prog.Replay QueryStep w (⟨.now, now⟩ ::
        ⟨.locked (cache.shardIndex key) (.getRead key cache.ttl now), phase⟩ :: tr) w' →
      ∃ w₁, OnlyExpired cache key w w₁ ∧ w₁.clock = now ∧ Prog.Replay QueryStep w₁ tr w' := by
    intro now phase tr hreplay
    rcases hreplay with _ | ⟨⟨hclock, rfl⟩, _ | ⟨hstep, hreplay⟩⟩
    rcases Prod.mk.inj hstep with ⟨-, rfl⟩
    have hnow : OnlyExpired cache key w { w with clock := now } := onlyExpired_now hclock
    exact ⟨_, hnow.trans (onlyExpired_getRead key { w with clock := now } now), rfl, hreplay⟩
  rcases MemoryCache.getEffectiveGrants_cases hpath with ⟨rfl, -⟩ | ⟨now, ⟨found, -, rfl⟩ |
    ⟨-, rfl⟩ | rfl⟩
  · cases hreplay
    exact OnlyExpired.refl key w
  · rcases hread hreplay with ⟨w₁, hstart, -, hrest⟩
    cases hrest
    exact hstart
  · rcases hread hreplay with ⟨w₁, hstart, -, hrest⟩
    cases hrest
    exact hstart
  · rcases hread hreplay with ⟨w₁, hstart, rfl, hrest⟩
    rcases hrest with _ | ⟨hwrite, hrest⟩
    rcases Prod.mk.inj hwrite with ⟨-, rfl⟩
    cases hrest
    exact hstart.trans (onlyExpired_getWrite key _)

/-- Nor does anything else that a query does before its cache write. -/
theorem onlyExpired_whole {key : CacheKey} {op : EngineSig.Op} {w w' : World}
    {r : EngineSig.Resp op} (hop : op.Concerns key.subject key.configSignature)
    (hset : ¬ op.IsSet) (h : Prog.Whole QueryStep cache.lower op w r w') :
    OnlyExpired cache key w w' := by
  rcases h with ⟨tr, hpath, hreplay⟩
  cases op with
  | read read =>
    cases hpath with
    | step a hpath =>
      rcases hpath.of_ret with ⟨rfl, -⟩
      rcases hreplay with _ | ⟨hstep, hreplay⟩
      cases hreplay
      have hsame : w' = w := hstep
      rw [hsame]
      exact OnlyExpired.refl key w
  | getEffectiveGrants t p sig =>
    rcases hop with ⟨rfl, rfl, rfl⟩
    exact onlyExpired_get hpath hreplay
  | setEffectiveGrants t p sig grants => exact absurd trivial hset
  | _ => exact absurd hop id

end Entries

/-! ## The theorem -/

/-- For every behaviour of the source and the cache, a query that returns:

* has failed at its first failed read, with that error, if there was one;
* has failed at the first expansion of a role that is refused, with that error;
* has, if it succeeds, expanded every role it found assigned;
* has, if it fails, ended at such a read or expansion without writing to the
  cache. A `MemoryCache` then has the entries it had, except that the query's
  own may be gone if it had expired. -/
theorem fail_closed [DefaultHasher] (engine : Engine) (request : Request) (cache : MemoryCache) :
    (∀ tr res, Prog.Path (engine.serve request).run tr (.ret res) →
      (∀ pre r e post, tr = pre ++ ⟨.read r, .error e⟩ :: post →
        post = [] ∧ res = .error (.source e)) ∧
      (∀ (pre exp post : List (Event EngineSig)) (role : RoleId) (e : Error)
          (rest : List RoleId → Fallible EngineSig Error Reply), tr = pre ++ (exp ++ post) →
        Prog.Path (engine.serve request).run pre
          (expandRoles (engine.tenantRoleHierarchy request.subject.tenant) role >>= rest).run →
        Prog.Path (expandRoles (engine.tenantRoleHierarchy request.subject.tenant) role).run exp
          (.ret (.error e)) →
        post = [] ∧ res = .error e) ∧
      (∀ reply, res = .ok reply → ∀ assignments,
        assignmentsRead request.subject assignments ∈ tr →
        ∀ a ∈ assignments, ExpandedIn (engine.roleReads request.subject.tenant) tr a.role) ∧
      ∀ e, res = .error e → FailedQuery engine request.subject tr e ∧ ∀ ev ∈ tr, ¬ ev.op.IsSet) ∧
    ∀ w tr e w', Prog.Path ((engine.serve request).run.subst cache.lower) tr (.ret (.error e)) →
      Prog.Replay QueryStep w tr w' →
      OnlyExpired cache
        ⟨request.subject.tenant, request.subject.principal, engine.configSignature⟩ w w' := by
  -- a set is the last thing a query does, and it then succeeds
  have hnoset : ∀ tr e, Prog.Path (engine.serve request).run tr (.ret (.error e)) →
      ∀ ev ∈ tr, ¬ ev.op.IsSet := by
    intro tr e hpath ev hev hset
    rcases List.append_of_mem hev with ⟨pre, post, rfl⟩
    rcases (endsWith_serve request).path hpath hset with ⟨-, reply, hok⟩
    cases hok
  refine ⟨fun tr res hpath => ⟨?_, ?_, ?_, ?_⟩, ?_⟩
  · rintro pre r e post rfl
    exact (stopsAt_serve request).path hpath rfl
  · -- the refused expansion ends the query, so nothing of the trace is left after it
    rintro pre exp post role e rest rfl hpre hexp
    exact Fallible.path_error hexp (hpre.cancel hpath)
  · rintro reply rfl assignments hread
    exact expandsAll_serve request tr reply assignments hpath hread
  · rintro e rfl
    exact ⟨failsBy_serve request tr e hpath, hnoset tr e hpath⟩
  · intro w tr e w' hpath hreplay
    -- the run as a sequence of whole cache calls and reads
    rcases Prog.Path.of_subst hpath hreplay with ⟨tr', hpath', hwhole⟩
    have hops := (hpath'.only (only_serve request)).1
    refine hwhole.rel (T := OnlyExpired cache _) (OnlyExpired.refl _)
      (fun _ _ _ h₁ h₂ => h₁.trans h₂) (G := fun op : EngineOp =>
        op.Concerns request.subject engine.configSignature ∧ ¬ op.IsSet) ?_ ?_
    · rintro op s r s' ⟨hop, hset⟩ h
      exact onlyExpired_whole hop hset h
    · exact fun ev hev => ⟨hops ev hev, hnoset tr' e hpath' ev hev⟩

namespace Sample

def unavailable : SourceError := ⟨"unavailable"⟩

/-- The subject is a clerk and a manager, and the source gives out between them. -/
def givingOut : List (Event EngineSig) :=
  [⟨.read (.tenantStatus tenant), .ok .active⟩, ⟨.read (.membershipStatus Sample.subject), .ok .active⟩,
    ⟨.getEffectiveGrants tenant principal (default : EngineConfig).signature, none⟩,
    ⟨.read (.roleAssignments Sample.subject), .ok [⟨clerk, .tenant⟩, ⟨manager, .tenant⟩]⟩,
    ⟨.read (.rolePermissions tenant clerk), .ok [read]⟩,
    ⟨.read (.rolePermissions tenant manager), .error unavailable⟩]

/-- The same on the sample cache, where the lookup reads the clock and one shard. -/
def givingOutBelow : List (Event WorldSig) :=
  [⟨.read (.tenantStatus tenant), .ok .active⟩, ⟨.read (.membershipStatus Sample.subject), .ok .active⟩,
    ⟨.now, (7 : Instant)⟩, ⟨.locked 0 (.getRead key none 7), ReadPhase.miss⟩,
    ⟨.read (.roleAssignments Sample.subject), .ok [⟨clerk, .tenant⟩, ⟨manager, .tenant⟩]⟩,
    ⟨.read (.rolePermissions tenant clerk), .ok [read]⟩,
    ⟨.read (.rolePermissions tenant manager), .error unavailable⟩]

/-- The sample world when the shard has been looked at. -/
def lookedAt : World :=
  (World.handle (.locked 0 (.getRead key none 7)) { world with clock := 7 }).2

end Sample

/-- The clerk's grant has been computed when the manager's cannot be. It is lost with
the query, and the cache is as before. -/
theorem fail_closed_sample :
    (FailedQuery (Engine.build default) Sample.subject Sample.givingOut
        (.source Sample.unavailable) ∧
      ∀ ev ∈ Sample.givingOut, ¬ ev.op.IsSet) ∧
    @OnlyExpired Sample.hasher Sample.cache Sample.key Sample.world Sample.lookedAt := by
  have hpath : Prog.Path ((Engine.build default).serve (.accessibleScope Sample.query)).run
      Sample.givingOut (.ret (.error (.source Sample.unavailable))) :=
    .step _ (.step _ (.step _ (.step _ (.step _ (.step _ (.refl _))))))
  have hbelow : Prog.Path (((Engine.build default).serve (.accessibleScope Sample.query)).run.subst
      (@MemoryCache.lower Sample.hasher Sample.cache)) Sample.givingOutBelow
      (.ret (.error (.source Sample.unavailable))) :=
    .step _ (.step _ (.step _ (.step _ (.step _ (.step _ (.step _ (.refl _)))))))
  have hreplay : Prog.Replay QueryStep Sample.world Sample.givingOutBelow Sample.lookedAt :=
    .cons rfl (.cons rfl (.cons ⟨Nat.zero_le 7, rfl⟩ (.cons rfl (.cons rfl (.cons rfl (.cons rfl
      (.nil _)))))))
  have hclosed := @fail_closed Sample.hasher (Engine.build default) (.accessibleScope Sample.query)
    Sample.cache
  exact ⟨(hclosed.1 _ _ hpath).2.2.2 _ rfl, hclosed.2 _ _ _ _ hbelow hreplay⟩

end RsTenant
