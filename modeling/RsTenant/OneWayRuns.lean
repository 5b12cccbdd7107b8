import RsTenant.Footprint

/-! # Runs that move a subject's data one way, or not at all

What the bracket of `Moments.lean` comes to when something is known of the
changes that others make during a run.

* `one_way_bracket`: when the subject's data only grows, an answer lies between
  what the data at the start and the data at the end of the run give; when it
  only shrinks, the other way round;
* `others_invisible`: when nothing changes that a query of the subject could
  see, an answer is the one of an uncached engine, errors included, whatever
  happens to the rest of the data and to the cache.
-/

namespace RsTenant

open Interact

section Runs

variable [DefaultHasher] {cache : MemoryCache} {w : World} {parties : ℕ → Party}
  {sched : List ℕ}

/-- Only a party that changes the data does so. -/
theorem mutates_prog (party : Party) : (party.prog cache).Only fun step : WorldOp =>
    ∀ change, step = .mutate change → party = .mutate change := by
  have hcall : ∀ op : WorldOp, cache.Performs op → ∀ change, op = .mutate change →
      party = .mutate change := by
    rintro op hop change rfl
    cases hop
  cases party with
  | get ttl key =>
    exact ((performs_getEffectiveGrants ttl key).mono hcall).bind fun _ => trivial
  | set ttl key grants =>
    exact ((performs_setEffectiveGrants ttl key grants).mono hcall).bind fun _ => trivial
  | query ttl engine request =>
    exact ((performs_subst_lower _ ttl).mono hcall).bind fun _ => trivial
  | invalidate ttl engine inv =>
    exact ((performs_subst_lower _ ttl).mono hcall).bind fun _ => trivial
  | mutate change =>
    refine ⟨?_, fun _ => trivial⟩
    rintro change' heq
    injection heq with heq
    rw [heq]
  | advance d => exact ⟨nofun, fun _ => trivial⟩

theorem party_of_mutate {o : Occ WorldSig World} (ho : o ∈ (after cache w parties sched).hist)
    {change : AuthorizationSource → AuthorizationSource} (hop : o.event.op = .mutate change) :
    parties o.thread = .mutate change := by
  have hpath := (after_history cache w parties sched).2.1 o.thread
  have hmem : o.event ∈ trail o.thread (after cache w parties sched).hist :=
    mem_trail.mpr ⟨o, ho, rfl, rfl⟩
  exact (hpath.only (mutates_prog _)).1 _ hmem change hop

/-- A reflexive and transitive relation that every change of the data keeps
holds from the source at the start to the one at each step, and from there to
the one at the end. -/
theorem source_rel {T : AuthorizationSource → AuthorizationSource → Prop} (hrefl : ∀ src, T src src)
    (htrans : ∀ src src₁ src', T src src₁ → T src₁ src' → T src src')
    (hchange : ∀ o ∈ (after cache w parties sched).hist, ∀ change,
      o.event.op = .mutate change → T o.pre.source (change o.pre.source)) :
    ∀ o ∈ (after cache w parties sched).hist,
      T w.source o.pre.source ∧ T o.pre.source (after cache w parties sched).shared.source := by
  refine (after_history cache w parties sched).1.rel
    (T := fun w w' : World => T w.source w'.source) (fun _ => hrefl _)
    (fun _ _ _ => htrans _ _ _) ?_
  rintro ⟨k, pre, ⟨op, resp⟩⟩ ho
  cases op with
  | mutate change => exact hchange _ ho change rfl
  | _ => exact hrefl _

/-- If every source that threads saw lies between two sets of data, so do the
answers. -/
theorem explained_of_between (hw : w.Fresh)
    (hsets : ∀ k ttl key grants, parties k ≠ .set ttl key grants) {i : ℕ}
    {ttl : Option Duration} {engine : Engine} {request : Request}
    (hi : parties i = .query ttl engine request) {reply : Reply}
    (hret : (after cache w parties sched).threads i = .ret (.result (.ok reply)))
    {lo hi' : Set (Datum RoleId GrantScope)}
    (hbetween : ∀ o ∈ (after cache w parties sched).hist,
      lo ⊆ o.pre.source.data request.subject ∧ o.pre.source.data request.subject ⊆ hi') :
    ∃ res, reply = request.reply res ∧
      Explained
        (fun status => ∃ src ∈ sourcesAt i (after cache w parties sched).hist,
          src.tenantStatus request.subject.tenant = .ok status)
        (fun status => ∃ src ∈ sourcesAt i (after cache w parties sched).hist,
          src.membershipStatus request.subject = .ok status)
        (Bracketed engine.config request.query lo hi') res := by
  obtain ⟨res, hreply, hresolved⟩ := resolved_of_returned hw hsets hi hret
  refine ⟨res, hreply, hresolved.explained ?_⟩
  rintro grants ⟨k, l, hread, hgrants⟩
  -- the reader's steps are among those of the run
  have hreader : ∀ src ∈ sourcesAt k l, lo ⊆ src.data request.subject ∧
      src.data request.subject ⊆ hi' := by
    intro src hsrc
    obtain ⟨o, ho, -, rfl⟩ := mem_sourcesAt.mp hsrc
    exact hbetween o (hread.mem o ho)
  exact (bracketed_decide request.query hgrants).mono
    (subset_always fun src hsrc => (hreader src hsrc).1)
    (ever_subset fun src hsrc => (hreader src hsrc).2)

end Runs

/-- Over every interleaving of queries, changes of the data and invalidations
on clones of one cache that starts out empty: while the data of the subject
only grows, a query allows all that follows from the data at the start of the
run and nothing that does not follow from the data at the end; while it only
shrinks, all that follows from the end and nothing but what follows from the
start. -/
theorem one_way_bracket [DefaultHasher] (cache : MemoryCache) (w : World) (hw : w.Fresh)
    (parties : ℕ → Party) (hsets : ∀ k ttl key grants, parties k ≠ .set ttl key grants)
    (sched : List ℕ) (i : ℕ) (ttl : Option Duration) (engine : Engine) (request : Request)
    (hi : parties i = .query ttl engine request) (reply : Reply)
    (hret : (after cache w parties sched).threads i = .ret (.result (.ok reply))) :
    ((∀ o ∈ (after cache w parties sched).hist, ∀ change, o.event.op = .mutate change →
        o.pre.source.data request.subject ⊆ (change o.pre.source).data request.subject) →
      ∃ res, reply = request.reply res ∧
        Explained
          (fun status => ∃ src ∈ sourcesAt i (after cache w parties sched).hist,
            src.tenantStatus request.subject.tenant = .ok status)
          (fun status => ∃ src ∈ sourcesAt i (after cache w parties sched).hist,
            src.membershipStatus request.subject = .ok status)
          (Bracketed engine.config request.query (w.source.data request.subject)
            ((after cache w parties sched).shared.source.data request.subject)) res) ∧
    ((∀ o ∈ (after cache w parties sched).hist, ∀ change, o.event.op = .mutate change →
        (change o.pre.source).data request.subject ⊆ o.pre.source.data request.subject) →
      ∃ res, reply = request.reply res ∧
        Explained
          (fun status => ∃ src ∈ sourcesAt i (after cache w parties sched).hist,
            src.tenantStatus request.subject.tenant = .ok status)
          (fun status => ∃ src ∈ sourcesAt i (after cache w parties sched).hist,
            src.membershipStatus request.subject = .ok status)
          (Bracketed engine.config request.query
            ((after cache w parties sched).shared.source.data request.subject)
            (w.source.data request.subject)) res) := by
  constructor
  · intro hgrow
    apply explained_of_between hw hsets hi hret
    -- each source in between holds the data of the start, and no more than that of the end
    exact source_rel (T := fun src src' => src.data request.subject ⊆ src'.data request.subject)
      (fun _ => subset_rfl) (fun _ _ _ => subset_trans) hgrow
  · intro hshrink
    apply explained_of_between hw hsets hi hret
    intro o ho
    have hrel := source_rel
      (T := fun src src' => src'.data request.subject ⊆ src.data request.subject)
      (fun _ => subset_rfl) (fun _ _ _ h h' => subset_trans h' h) hshrink o ho
    exact ⟨hrel.2, hrel.1⟩

namespace Sample

/-- Everybody asks for the clerk's scope, and somebody changes the data. -/
def asking (change : AuthorizationSource → AuthorizationSource) (k : ℕ) : Party :=
  if k = 1 then .mutate change else .query none (Engine.build default) (.accessibleScope query)

theorem asking_ne_set (change : AuthorizationSource → AuthorizationSource) (k : ℕ)
    (ttl : Option Duration) (key : CacheKey) (grants : List EffectiveGrant) :
    asking change k ≠ .set ttl key grants := by
  unfold asking
  split <;> nofun

/-- What holds of the one change holds of every change in the run. -/
theorem asking_change {change : AuthorizationSource → AuthorizationSource}
    {P : (AuthorizationSource → AuthorizationSource) → Prop} (hP : P change) {w : World}
    {sched : List ℕ} : ∀ o ∈ (@after hasher cache w (asking change) sched).hist, ∀ change',
      o.event.op = .mutate change' → P change' := by
  intro o ho change' hop
  have hparty := @party_of_mutate hasher _ _ _ _ _ ho _ hop
  unfold asking at hparty
  split at hparty
  · injection hparty with heq
    exact heq ▸ hP
  · cases hparty

/-- Everybody becomes a clerk. -/
def hire (src : AuthorizationSource) : AuthorizationSource :=
  { src with roleAssignments := fun s => (src.roleAssignments s).map (· ++ [⟨clerk, .tenant⟩]) }

/-- All assignments are taken away. -/
def fire (src : AuthorizationSource) : AuthorizationSource :=
  { src with roleAssignments := fun _ => .ok [] }

theorem data_hire (src : AuthorizationSource) (s : AuthSubject) :
    src.data s ⊆ (hire src).data s := by
  intro d hd
  cases d with
  | assigned a =>
    obtain ⟨as, has, ha⟩ := hd
    refine ⟨as ++ [⟨clerk, .tenant⟩], ?_, List.mem_append_left _ ha⟩
    show (src.roleAssignments s).map _ = _
    rw [has]
    rfl
  | parent r p => exact hd
  | permission r p => exact hd

theorem data_fire (src : AuthorizationSource) (s : AuthSubject) :
    (fire src).data s ⊆ src.data s := by
  intro d hd
  cases d with
  | assigned a =>
    obtain ⟨as, has, ha⟩ := hd
    rw [← Except.ok.inj has] at ha
    exact absurd ha List.not_mem_nil
  | parent r p => exact hd
  | permission r p => exact hd

end Sample

/-- The clerk is hired before the assignments are read, or fired after. -/
theorem one_way_bracket_sample :
    Bracketed default Sample.query (Sample.dismissed.source.data Sample.subject)
      ((@after Sample.hasher Sample.cache ⟨Sample.dismissed.source, fun _ => .empty, 0⟩
        (Sample.asking Sample.hire)
        [0, 0, 0, 0, 1, 0, 0, 0, 0]).shared.source.data Sample.subject)
      (.tenant Sample.tenant) ∧
    Bracketed default Sample.query
      ((@after Sample.hasher Sample.cache Sample.world (Sample.asking Sample.fire)
        [0, 0, 0, 0, 0, 1, 0, 0, 0]).shared.source.data Sample.subject)
      (Sample.facts.source.data Sample.subject) (.tenant Sample.tenant) := by
  constructor
  · obtain ⟨res, hreply, hres⟩ := (@one_way_bracket Sample.hasher Sample.cache
      ⟨Sample.dismissed.source, fun _ => .empty, 0⟩ (fun _ => rfl) (Sample.asking Sample.hire)
      (Sample.asking_ne_set _) [0, 0, 0, 0, 1, 0, 0, 0, 0] 0 none (Engine.build default)
      (.accessibleScope Sample.query) rfl (.scope (.tenant Sample.tenant)) rfl).1
      fun o ho change hop => Sample.asking_change
        (P := fun change => ∀ src : AuthorizationSource,
          src.data Sample.subject ⊆ (change src).data Sample.subject)
        (fun src => Sample.data_hire src _) o ho change hop _
    cases hres with
    | tenantInactive => cases hreply
    | principalInactive => cases hreply
    | decided _ _ hscope =>
      cases hreply
      exact hscope
  · obtain ⟨res, hreply, hres⟩ := (@one_way_bracket Sample.hasher Sample.cache Sample.world
      (fun _ => rfl) (Sample.asking Sample.fire) (Sample.asking_ne_set _)
      [0, 0, 0, 0, 0, 1, 0, 0, 0] 0 none (Engine.build default) (.accessibleScope Sample.query) rfl
      (.scope (.tenant Sample.tenant)) rfl).2
      fun o ho change hop => Sample.asking_change
        (P := fun change => ∀ src : AuthorizationSource,
          (change src).data Sample.subject ⊆ src.data Sample.subject)
        (fun src => Sample.data_fire src _) o ho change hop _
    cases hres with
    | tenantInactive => cases hreply
    | principalInactive => cases hreply
    | decided _ _ hscope =>
      cases hreply
      exact hscope

/-! ## Changes that the subject does not see -/

/-- When no change is one that a query of the subject could see, each of its
reads is answered as at the start. -/
theorem read_of_alike {w w' : World} {l : List (Occ WorldSig World)}
    (hrecords : Records World.handle w l w') {engine : Engine} {subject : AuthSubject}
    (hquiet : ∀ o ∈ l, ∀ change, o.event.op = .mutate change →
      o.pre.source.Alike engine subject (change o.pre.source))
    {o : Occ WorldSig World} (ho : o ∈ l) {r : SourceRead} {a : Except SourceError r.Answer}
    (hevent : o.event = ⟨.read r, a⟩) (hr : w.source.Footprint engine subject r) :
    a = w.source.answer r := by
  -- the sources at the start and at the read look the same to the subject
  have halike : w.source.Alike engine subject o.pre.source := by
    refine (hrecords.rel (T := fun w w' : World => w.source.Alike engine subject w'.source)
      (fun _ _ _ => rfl) (fun _ _ _ h h' => h.trans h') ?_ o ho).1
    rintro ⟨k, pre, ⟨op, resp⟩⟩ ho'
    cases op with
    | mutate change => exact hquiet _ ho' change rfl
    | _ => exact fun _ _ => rfl
  have hresp := hrecords.resp o ho
  rw [hevent] at hresp
  have hanswer : a = o.pre.source.answer r := hresp
  exact hanswer.trans (halike r hr).symm

section Quiet

variable [DefaultHasher] {cache : MemoryCache} {w : World} {parties : ℕ → Party}
  {sched : List ℕ} {subject : AuthSubject} {engine : Engine}

/-- A query whose reads are all answered from `src` writes what an engine
computes from it. -/
theorem fresh_of_writes (hsets : ∀ k ttl key grants, parties k ≠ .set ttl key grants)
    {src : AuthorizationSource} {s : Occ WorldSig World}
    (hs : s ∈ (after cache w parties sched).hist) {e : CacheEntry}
    (hwrites : s.event.op.Writes cache
      ⟨subject.tenant, subject.principal, engine.configSignature⟩ e)
    (hreads : ∀ o ∈ (after cache w parties sched).hist, o.thread = s.thread →
      ∀ r a, o.event = ⟨.read r, a⟩ → src.Footprint engine subject r → a = src.answer r) :
    engine.fresh src subject = .ok e.grants := by
  obtain ⟨ttl, request, hparty, hsubject⟩ := query_of_writes hsets hs hwrites
  subst hsubject
  have hpath := (after_history cache w parties sched).2.1 s.thread
  rw [hparty] at hpath
  refine ((triple_query_fills_within request).path hpath ?_).2 _
    (mem_trail.mpr ⟨s, hs, rfl, rfl⟩) _ _ hwrites
  intro ev hev hlooks r a hevent _ _
  obtain ⟨o, ho, hthread, rfl⟩ := mem_trail.mp hev
  exact hreads o ho hthread r a hevent (hlooks.of_read hevent)

/-- What a lookup of the subject's entry finds was written in the run. -/
theorem writes_of_decided (hw : w.Fresh) {ttl : Option Duration}
    {l n : List (Occ WorldSig World)} {o : Occ WorldSig World}
    (hhist : (after cache w parties sched).hist = l ++ o :: n) {now : Instant}
    {grants : List EffectiveGrant}
    (hdecided : DecidedBy cache ttl
      ⟨subject.tenant, subject.principal, engine.configSignature⟩ now grants o.event) :
    ∃ l₁ s l₂ at', (after cache w parties sched).hist = l₁ ++ s :: l₂ ∧
      s.event.op.Writes cache
        ⟨subject.tenant, subject.principal, engine.configSignature⟩ ⟨grants, at'⟩ ∧
      ∀ d, ttl = some d → now - at' ≤ d := by
  rcases after_history cache w parties sched with ⟨hrecords, -, -, hplaced⟩
  rw [hhist] at hrecords hplaced
  obtain ⟨at', ⟨l₁, s, m, hsplit, hwrites, -⟩, hage⟩ :=
    written_of_decided hw hrecords hplaced hdecided
  refine ⟨l₁, s, m ++ o :: n, at', ?_, hwrites, hage⟩
  rw [hhist, hsplit, List.append_assoc, List.cons_append]

end Quiet

/-- Over every interleaving: when no change of the data is one that a query of
the subject could see, it returns what an uncached engine computes from the data
at the start, errors included. The roles that the subject does not hold, other
subjects' data, invalidations, other engines on the same cache and time passing
make no difference. -/
theorem others_invisible [DefaultHasher] (cache : MemoryCache) (w : World) (hw : w.Fresh)
    (parties : ℕ → Party) (hsets : ∀ k ttl key grants, parties k ≠ .set ttl key grants)
    (sched : List ℕ) (i : ℕ) (ttl : Option Duration) (engine : Engine) (request : Request)
    (hi : parties i = .query ttl engine request)
    (hquiet : ∀ o ∈ (after cache w parties sched).hist, ∀ change,
      o.event.op = .mutate change →
        o.pre.source.Alike engine request.subject (change o.pre.source))
    (res : Except Error Reply)
    (hret : (after cache w parties sched).threads i = .ret (.result res)) :
    res = engine.uncached w.source request := by
  have hpath := (after_history cache w parties sched).2.1 i
  rw [hret, hi] at hpath
  have hreliable : ∀ ev ∈ trail i (after cache w parties sched).hist,
      WorldOp.Looks (w.source.Footprint engine request.subject) ev.op →
        Reliable cache engine w.source request.subject ev.op ev.resp := by
    intro ev hev hlooks
    obtain ⟨o, ho, -, rfl⟩ := mem_trail.mp hev
    constructor
    · intro r a hevent _
      exact read_of_alike (after_history cache w parties sched).1 hquiet ho hevent
        (hlooks.of_read hevent)
    · intro ttl' now grants hdecided
      obtain ⟨l, n, hhist⟩ := List.append_of_mem ho
      obtain ⟨l₁, s, l₂, at', hsplit, hwrites, -⟩ := writes_of_decided hw hhist hdecided
      have hs : s ∈ (after cache w parties sched).hist := by
        rw [hsplit]
        exact List.mem_append_right _ List.mem_cons_self
      refine fresh_of_writes hsets hs hwrites fun o' ho' _ r a hevent hr => ?_
      exact read_of_alike (after_history cache w parties sched).1 hquiet ho' hevent hr
  have hreturned := ((triple_query_within request).path hpath hreliable).1
  exact Returned.result.inj hreturned

namespace Sample

/-- Nobody but clerks may do anything any more, and all other tenants are shut
down. -/
def purge (src : AuthorizationSource) : AuthorizationSource :=
  { src with
    tenantStatus := fun t => if t = tenant then src.tenantStatus t else .ok .inactive
    rolePermissions := fun t r => if r = clerk then src.rolePermissions t r else .ok [] }

/-- The subject is a clerk and nothing else. -/
theorem eq_clerk_of_held {src : AuthorizationSource}
    (h : src.roleAssignments = facts.source.roleAssignments) {r : RoleId}
    (hr : Datum.Held false (src.data subject) r) : r = clerk := by
  obtain ⟨a, ⟨as, has, ha⟩, hreach⟩ := hr
  rw [h] at has
  have has' : as = [⟨clerk, .tenant⟩] := (Except.ok.inj has).symm
  rw [has', List.mem_singleton] at ha
  subst ha
  exact hreach

theorem alike_purge {src : AuthorizationSource}
    (h : src.roleAssignments = facts.source.roleAssignments) :
    src.Alike (Engine.build default) subject (purge src) := by
  intro r hr
  cases r with
  | tenantStatus t => exact (if_pos hr).symm
  | rolePermissions t role => exact (if_pos (eq_clerk_of_held h hr.2)).symm
  | _ => rfl

end Sample

theorem others_invisible_sample :
    (.ok (.scope (.tenant Sample.tenant)) : Except Error Reply) =
      (Engine.build default).uncached Sample.facts.source (.accessibleScope Sample.query) := by
  refine @others_invisible Sample.hasher Sample.cache Sample.world (fun _ => rfl)
    (Sample.asking Sample.purge) (Sample.asking_ne_set _)
    [0, 2, 0, 0, 1, 2, 0, 0, 0, 0, 0] 0 none (Engine.build default)
    (.accessibleScope Sample.query) rfl ?_ _ rfl
  have hkeeps : ∀ src, (Sample.purge src).roleAssignments = src.roleAssignments := fun _ => rfl
  have hkept := @source_rel Sample.hasher Sample.cache Sample.world
    (Sample.asking Sample.purge) [0, 2, 0, 0, 1, 2, 0, 0, 0, 0, 0]
    (fun src src' => src'.roleAssignments = src.roleAssignments) (fun _ => rfl)
    (fun _ _ _ h h' => h'.trans h) fun o ho change hop => Sample.asking_change
      (P := fun change => ∀ src : AuthorizationSource,
        (change src).roleAssignments = src.roleAssignments) hkeeps o ho change hop _
  intro o ho change hop
  refine Sample.asking_change (P := fun change => ∀ src : AuthorizationSource,
    src.roleAssignments = Sample.facts.source.roleAssignments →
      src.Alike (Engine.build default) Sample.subject (change src))
    (fun src => Sample.alike_purge) o ho change hop _ (hkept o ho).1

end RsTenant
