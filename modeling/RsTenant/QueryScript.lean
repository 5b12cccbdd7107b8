import RsTenant.Lib.Discovery
import RsTenant.Lib.Script
import RsTenant.ExpansionLoop
import RsTenant.PlatformQueries

/-! # The reads of a query, in order

Whatever is answered, a query keeps to a script: the statuses first, then the
cache, then the assignments, and for each of them one round of reads. A round
reads the parents of the roles that the assignment stands for, in the order in
which a depth-first search discovers them in the answers, and then the
permissions of the same roles in the same order; without a hierarchy it reads the
permissions of the assigned role. No role is discovered twice, so however many
ways lead to a role, it is read at most once for each assignment (`query_script`,
`platform_script`).
-/

namespace RsTenant

open Interact Discovery

/-! ## Rounds -/

section Rounds

variable {S : Sig} {Role Sc : Type} [DecidableEq Role]

/-- What is read for one assignment: roles with their parents, and roles with
their permissions. -/
structure Round (Role : Type) where
  parents : List (Role × List Role)
  permissions : List (Role × List Permission)

/-- The grants that come out of a round. -/
def Round.grants (round : Round Role) (scope : Sc) : List (ScopedGrant Role Sc) :=
  round.permissions.flatMap fun p => p.2.map fun permission => ⟨p.1, permission, scope⟩

/-- The grants that come out of all rounds, each for its assignment. -/
def grantsOf (rounds : List (Assignment Role Sc × Round Role)) : List (ScopedGrant Role Sc) :=
  rounds.flatMap fun p => p.2.grants p.1.scope

/-- The roles that `role` stands for, with the parents that were read for them:
what a search discovers in the answers, or the role alone. -/
def RoleReads.Expands (reads : RoleReads S Role) (role : Role) (parents : List (Role × List Role)) :
    Prop :=
  if reads.enableRoleHierarchy then Finished role parents else parents = [(role, [])]

/-- The round is one for `role`: permissions are read of the roles that it stands
for, in the same order. -/
structure RoleReads.RoundFor (reads : RoleReads S Role) (role : Role) (round : Round Role) :
    Prop where
  expands : reads.Expands role round.parents
  same : round.permissions.map Prod.fst = round.parents.map Prod.fst

/-- The events of a round; parents are read with the hierarchy only. -/
def RoleReads.events (reads : RoleReads S Role) (parentEvent : Role → List Role → Event S)
    (permissionEvent : Role → List Permission → Event S) (round : Round Role) : List (Event S) :=
  (if reads.enableRoleHierarchy then round.parents.map fun p => parentEvent p.1 p.2 else []) ++
    round.permissions.map fun p => permissionEvent p.1 p.2

/-- The parents of a role, and its permissions, are read by one operation. -/
structure ReadsOnce (reads : RoleReads S Role) (parentEvent : Role → List Role → Event S)
    (permissionEvent : Role → List Permission → Event S) : Prop where
  parentRoles : ∀ r, (reads.hierarchy.parentRoles r).Asks (parentEvent r)
  rolePermissions : ∀ r, (reads.rolePermissions r).Asks (permissionEvent r)

variable {reads : RoleReads S Role} {parentEvent : Role → List Role → Event S}
  {permissionEvent : Role → List Permission → Event S}

/-- A role that nobody has read stands for itself. -/
theorem expands_alone (reads : RoleReads S Role) (role : Role) :
    reads.Expands role [(role, [])] := by
  unfold RoleReads.Expands
  split
  · exact finished_alone role
  · rfl

/-- No role is read twice, with or without a hierarchy. -/
theorem RoleReads.Expands.nodup {role : Role} {parents : List (Role × List Role)}
    (h : reads.Expands role parents) : (parents.map Prod.fst).Nodup := by
  unfold RoleReads.Expands at h
  split at h
  · exact h.discovers.nodup
  · rw [h]
    exact List.nodup_singleton role

/-- Nothing is read twice for one assignment. -/
theorem RoleReads.RoundFor.nodup {role : Role} {round : Round Role}
    (h : reads.RoundFor role round) (parentOp permissionOp : Role → S.Op)
    (hparentOp : ∀ r ps, (parentEvent r ps).op = parentOp r)
    (hpermissionOp : ∀ r ps, (permissionEvent r ps).op = permissionOp r)
    (hparent : Function.Injective parentOp) (hpermission : Function.Injective permissionOp)
    (hdistinct : ∀ r r', parentOp r ≠ permissionOp r') :
    ((reads.events parentEvent permissionEvent round).map Event.op).Nodup := by
  have hparents : (round.parents.map fun p => parentEvent p.1 p.2).map Event.op =
      (round.parents.map Prod.fst).map parentOp := by
    simp [hparentOp]
  have hpermissions : (round.permissions.map fun p => permissionEvent p.1 p.2).map Event.op =
      (round.parents.map Prod.fst).map permissionOp := by
    rw [← h.same]
    simp [hpermissionOp]
  have hroles := h.expands.nodup
  unfold RoleReads.events
  rw [List.map_append, hpermissions]
  split
  · rw [hparents]
    refine List.nodup_append.mpr ⟨hroles.map hparent, hroles.map hpermission, ?_⟩
    intro op hop op' hop' heq
    obtain ⟨r, -, rfl⟩ := List.mem_map.mp hop
    obtain ⟨r', -, rfl⟩ := List.mem_map.mp hop'
    exact hdistinct r r' heq
  · exact hroles.map hpermission

/-- A round can be told from its events. -/
theorem RoleReads.RoundFor.eq_of_events {role : Role} {round round' : Round Role}
    (h : reads.RoundFor role round) (h' : reads.RoundFor role round')
    (hparent : Function.Injective2 parentEvent) (hpermission : Function.Injective2 permissionEvent)
    (heq : reads.events parentEvent permissionEvent round =
      reads.events parentEvent permissionEvent round') : round = round' := by
  have hpairs : ∀ {α β : Type} {f : α → β → Event S}, Function.Injective2 f →
      Function.Injective (List.map fun p : α × β => f p.1 p.2) := by
    intro α β f hf
    refine List.map_injective_iff.mpr fun p p' hpp => ?_
    exact Prod.ext (hf hpp).1 (hf hpp).2
  have hlength := congrArg List.length h.same
  have hlength' := congrArg List.length h'.same
  have hexpands := h.expands
  have hexpands' := h'.expands
  simp only [List.length_map] at hlength hlength'
  unfold RoleReads.Expands at hexpands hexpands'
  unfold RoleReads.events at heq
  split at hexpands
  · -- the two halves of a round are of one length
    rename_i hhierarchy
    rw [if_pos hhierarchy, if_pos hhierarchy] at heq
    have htotal := congrArg List.length heq
    simp only [List.length_append, List.length_map] at htotal
    obtain ⟨hparents, hpermissions⟩ := List.append_inj heq (by simp only [List.length_map]; omega)
    cases round
    cases round'
    exact congrArg₂ Round.mk (hpairs hparent hparents) (hpairs hpermission hpermissions)
  · rename_i hhierarchy
    rw [if_neg hhierarchy, if_neg hhierarchy, List.nil_append, List.nil_append] at heq
    rw [if_neg hhierarchy] at hexpands'
    cases round
    cases round'
    exact congrArg₂ Round.mk (hexpands.trans hexpands'.symm) (hpairs hpermission heq)

/-- With one assignment the events tell all. -/
theorem rounds_eq_singleton {a : Assignment Role Sc} {round : Round Role}
    {rounds : List (Assignment Role Sc × Round Role)}
    (hround : reads.RoundFor a.role round)
    (hrounds : ∀ p ∈ rounds, reads.RoundFor p.1.role p.2)
    (hparent : Function.Injective2 parentEvent) (hpermission : Function.Injective2 permissionEvent)
    (hassigned : rounds.map Prod.fst = [a])
    (hevents : rounds.flatMap (fun p => reads.events parentEvent permissionEvent p.2) =
      reads.events parentEvent permissionEvent round) : rounds = [(a, round)] := by
  obtain ⟨⟨_, round'⟩, rfl, rfl⟩ := List.map_eq_singleton_iff.mp hassigned
  rw [List.flatMap_singleton] at hevents
  have hsame := (hrounds _ List.mem_cons_self).eq_of_events hround hparent hpermission hevents
  exact congrArg (fun round => [(_, round)]) hsame

omit [DecidableEq Role] in
/-- What is read at most once in a round is read at most once for each of a
number of rounds. -/
theorem countP_flatMap_le {Share : Type} {events : Share → List (Event S)} {p : S.Op → Bool}
    (hp : ∀ op op', p op = true → p op' = true → op = op') {shares : List Share}
    (h : ∀ share ∈ shares, ((events share).map Event.op).Nodup) :
    ((shares.flatMap events).map Event.op).countP p ≤ shares.length := by
  have honce : ∀ l : List S.Op, l.Nodup → l.countP p ≤ 1 := by
    intro l hl
    induction l with
    | nil => exact Nat.zero_le 1
    | cons op l ih =>
      rw [List.nodup_cons] at hl
      rw [List.countP_cons]
      split
      · rename_i hop
        have hrest : l.countP p = 0 := by
          rw [List.countP_eq_zero]
          intro op' hop' hp'
          exact hl.1 (hp op op' hop hp' ▸ hop')
        rw [hrest]
      · exact ih hl.2
  induction shares with
  | nil => exact Nat.le_refl 0
  | cons share shares ih =>
    rw [List.forall_mem_cons] at h
    have hfirst := honce _ h.1
    have hrest := ih h.2
    rw [List.flatMap_cons, List.map_append, List.countP_append, List.length_cons]
    omega

/-! ## The loops -/

/-- The state of an expansion that has discovered `found`. -/
structure Discovering (root : Role) (found : List (Role × List Role)) (st : Expansion Role) :
    Prop where
  discovers : Discovers root found
  listed : Listed st
  output : st.output = found.map Prod.fst
  visited : ∀ r ∈ st.visited, r ∈ st.output
  frames : ∀ f ∈ st.stack, f.role ∈ st.output
  kept : Kept root found (st.stack.flatMap Frame.iter)

namespace Discovering

variable {root current parent : Role} {found : List (Role × List Role)} {st : Expansion Role}
  {depth : ℕ} {iter : List Role} {stack : List (Frame Role)}

/-- The root is discovered before anything else. -/
theorem start (root : Role) (parents : List Role) :
    Discovering root [(root, parents)] (Expansion.start root parents) where
  discovers := Discovers.start.next (pending_start root) parents
  listed := listed_start root parents
  output := rfl
  visited r hr := absurd hr (Finset.notMem_empty r)
  frames f hf := by
    rw [List.mem_singleton.mp hf]
    exact List.mem_cons_self
  kept := (kept_start root).push parents

/-- Without a frame left there is nothing to discover. -/
theorem done (h : Discovering root found st) (hst : st.stack = []) : Finished root found where
  discovers := h.discovers
  nothing := by
    have hkept := h.kept
    rw [hst] at hkept
    exact hkept

/-- A frame without parents left keeps nothing pending. -/
theorem pop (h : Discovering root found st) (hst : st.stack = ⟨current, depth, []⟩ :: stack) :
    Discovering root found
      ⟨stack, insert current st.visited, st.visiting.erase current, st.output⟩ where
  discovers := h.discovers
  listed := h.listed.pop
  output := h.output
  visited r hr := by
    rcases Finset.mem_insert.mp hr with rfl | hr
    · exact h.frames ⟨r, depth, []⟩ (hst ▸ List.mem_cons_self)
    · exact h.visited r hr
  frames f hf := h.frames f (hst ▸ List.mem_cons_of_mem _ hf)
  kept := by
    have hkept := h.kept
    rw [hst] at hkept
    exact hkept

/-- A parent that was finished before is not discovered again. -/
theorem skip (h : Discovering root found st)
    (hst : st.stack = ⟨current, depth, parent :: iter⟩ :: stack) (hvisited : parent ∈ st.visited) :
    Discovering root found
      ⟨⟨current, depth, iter⟩ :: stack, st.visited, st.visiting, st.output⟩ where
  discovers := h.discovers
  listed := ⟨h.listed.nodup, h.listed.met⟩
  output := h.output
  visited := h.visited
  frames f hf := by
    rcases List.mem_cons.mp hf with rfl | hf
    · exact h.frames ⟨current, depth, parent :: iter⟩ (hst ▸ List.mem_cons_self)
    · exact h.frames f (hst ▸ List.mem_cons_of_mem _ hf)
  kept := by
    -- what was pending before the parent still is
    have hkept := h.kept
    rw [hst, List.flatMap_cons] at hkept
    exact hkept.skip (h.output ▸ h.visited parent hvisited)

/-- A parent that is neither finished nor on the path is the next one of the
search. -/
theorem push (h : Discovering root found st)
    (hst : st.stack = ⟨current, depth, parent :: iter⟩ :: stack) (hnew : parent ∉ st.output)
    (parents : List Role) :
    Discovering root (found ++ [(parent, parents)])
      ⟨⟨parent, depth + 1, parents⟩ :: ⟨current, depth, iter⟩ :: stack, st.visited,
        insert parent st.visiting, st.output ++ [parent]⟩ where
  discovers := by
    have hkept := h.kept
    rw [hst, List.flatMap_cons] at hkept
    exact h.discovers.next (hkept.next (h.output ▸ hnew)) parents
  listed := h.listed.push hnew
  output := by
    rw [List.map_append, h.output]
    rfl
  visited r hr := List.mem_append_left _ (h.visited r hr)
  frames f hf := by
    rcases List.mem_cons.mp hf with rfl | hf
    · exact List.mem_append_right _ List.mem_cons_self
    · refine List.mem_append_left _ ?_
      rcases List.mem_cons.mp hf with rfl | hf
      · exact h.frames ⟨current, depth, parent :: iter⟩ (hst ▸ List.mem_cons_self)
      · exact h.frames f (hst ▸ List.mem_cons_of_mem _ hf)
  kept := by
    have hkept := h.kept
    rw [hst, List.flatMap_cons] at hkept
    exact hkept.push parents

end Discovering

/-- A table of a list has the list in its first column. -/
theorem map_fst_table {α β : Type} (l : List α) (f : α → β) :
    (l.map fun a => (a, f a)).map Prod.fst = l :=
  List.map_map.trans (List.map_id l)

section Plays

variable (honce : ReadsOnce reads parentEvent permissionEvent)
include honce

/-- The loop reads what the search goes on to discover. -/
theorem plays_expandLoop {root : Role} {found : List (Role × List Role)} (st : Expansion Role)
    (h : Discovering root found st) :
    Fallible.Plays (fun s st' => ∃ more, Finished root (found ++ more) ∧
        s = more.map (fun p => parentEvent p.1 p.2) ∧ st'.output = (found ++ more).map Prod.fst)
      (expandLoop reads.hierarchy st) := by
  -- the cases are the branches of the loop; the two refusals end it in an error
  induction st using expandLoop.induct reads.hierarchy generalizing found with
  | case1 st hnil =>
    rw [expandLoop_done hnil]
    refine .of_pure ⟨[], ?_, rfl, ?_⟩
    · exact (List.append_nil found).symm ▸ h.done hnil
    · rw [List.append_nil, h.output]
  | case2 st current depth parent iter stack hcons hdeep =>
    rw [expandLoop_parent hcons, if_pos hdeep]
    exact .of_throw _
  | case3 st current depth parent iter stack hcons hdeep hvisiting =>
    rw [expandLoop_parent hcons, if_neg hdeep, if_pos hvisiting]
    exact .of_throw _
  | case4 st current depth parent iter stack hcons hdeep hvisiting hvisited ih =>
    rw [expandLoop_parent hcons, if_neg hdeep, if_neg hvisiting, if_pos hvisited]
    exact ih (h.skip hcons hvisited)
  | case5 st current depth parent iter stack hcons hdeep hvisiting hvisited ih =>
    rw [expandLoop_parent hcons, if_neg hdeep, if_neg hvisiting, if_neg hvisited]
    have hnew : parent ∉ st.output := h.listed.not_mem hvisiting hvisited
    -- a read may fail later on; then the search could have been finished in any way
    refine (honce.parentRoles parent).plays.bind
      (fun parents => ih parents (h.push hcons hnew parents)) (fun parents => ?_) ?_
    · obtain ⟨more, hmore⟩ := (h.push hcons hnew parents).discovers.exists_finished
      exact ⟨_, { st with output := _ }, more, hmore, rfl, rfl⟩
    · rintro s₁ parents s₂ st' rfl ⟨more, hmore, rfl, houtput⟩
      rw [List.append_assoc] at hmore houtput
      exact ⟨(parent, parents) :: more, hmore, rfl, houtput⟩
  | case6 st current depth stack hcons ih =>
    rw [expandLoop_pop hcons]
    exact ih (h.pop hcons)

/-- An expansion reads what a whole search discovers. -/
theorem plays_expandRoles (root : Role) :
    Fallible.Plays (fun s roles => ∃ found, Finished root found ∧
        s = found.map (fun p => parentEvent p.1 p.2) ∧ roles = found.map Prod.fst)
      (expandRoles reads.hierarchy root) := by
  have hloop : ∀ parents, Fallible.Plays (fun s roles => ∃ more,
        Finished root ([(root, parents)] ++ more) ∧ s = more.map (fun p => parentEvent p.1 p.2) ∧
        roles = ([(root, parents)] ++ more).map Prod.fst)
      (expandLoop reads.hierarchy (Expansion.start root parents) >>= fun st => pure st.output) :=
    fun parents => (plays_expandLoop honce _ (Discovering.start root parents)).map
      fun s st hst => hst
  unfold expandRoles expandFrom
  rw [bind_assoc]
  refine (honce.parentRoles root).plays.bind hloop (fun parents => ?_) ?_
  · obtain ⟨more, hmore⟩ := (Discovering.start root parents).discovers.exists_finished
    exact ⟨_, _, more, hmore, rfl, rfl⟩
  · rintro s₁ parents s₂ roles rfl ⟨more, hmore, rfl, rfl⟩
    exact ⟨[(root, parents)] ++ more, hmore, rfl, rfl⟩

/-- What a role stands for, and what is read to find it. -/
theorem plays_rolesOf (role : Role) :
    Fallible.Plays (fun s roles => ∃ found, reads.Expands role found ∧
        s = (if reads.enableRoleHierarchy then found.map fun p => parentEvent p.1 p.2 else []) ∧
        roles = found.map Prod.fst)
      (reads.rolesOf role) := by
  unfold RoleReads.rolesOf RoleReads.Expands
  split
  · exact plays_expandRoles honce role
  · exact .of_pure ⟨[(role, [])], rfl, rfl, rfl⟩

omit [DecidableEq Role] in
/-- The permissions of the roles are read in their order. -/
theorem plays_roleGrants (scope : Sc) (roles : List Role) (grants : List (ScopedGrant Role Sc)) :
    Fallible.Plays (fun s grants' => ∃ permissions : List (Role × List Permission),
        permissions.map Prod.fst = roles ∧ s = permissions.map (fun p => permissionEvent p.1 p.2) ∧
        grants' = grants ++ permissions.flatMap fun p => p.2.map fun q => ⟨p.1, q, scope⟩)
      (reads.roleGrants scope roles grants) := by
  induction roles generalizing grants with
  | nil => exact .of_pure ⟨[], rfl, rfl, (List.append_nil grants).symm⟩
  | cons role roles ih =>
    refine (honce.rolePermissions role).plays.bind (fun permissions => ih _) (fun permissions => ?_)
      ?_
    · exact ⟨_, _, roles.map fun r => (r, []), map_fst_table roles _, rfl, rfl⟩
    · rintro s₁ permissions s₂ grants' rfl ⟨later, hlater, rfl, rfl⟩
      refine ⟨(role, permissions) :: later, ?_, rfl, ?_⟩
      · rw [List.map_cons, hlater]
      · rw [List.flatMap_cons, List.append_assoc]

/-- One round for an assignment. -/
theorem plays_round (role : Role) (scope : Sc) (grants : List (ScopedGrant Role Sc)) :
    Fallible.Plays (fun s grants' => ∃ round, reads.RoundFor role round ∧
        s = reads.events parentEvent permissionEvent round ∧
        grants' = grants ++ round.grants scope)
      (reads.rolesOf role >>= fun roles => reads.roleGrants scope roles grants) := by
  -- if no permissions come, any could have been answered for the roles
  refine (plays_rolesOf honce role).bind (fun roles => plays_roleGrants honce scope roles grants)
    (fun roles => ⟨_, _, roles.map fun r => (r, []), map_fst_table roles _, rfl, rfl⟩) ?_
  rintro s₁ roles s₂ grants' ⟨found, hfound, rfl, rfl⟩ ⟨permissions, hsame, rfl, rfl⟩
  exact ⟨⟨found, permissions⟩, ⟨hfound, hsame⟩, rfl, rfl⟩

/-- A round in which nothing is found. -/
def Round.empty (role : Role) : Round Role := ⟨[(role, [])], [(role, [])]⟩

omit honce in
/-- Such a round is one of every role. -/
theorem roundFor_empty (reads : RoleReads S Role) (role : Role) :
    reads.RoundFor role (Round.empty role) := ⟨expands_alone reads role, rfl⟩

/-- One round for each assignment. -/
theorem plays_assignmentGrants (assignments : List (Assignment Role Sc))
    (grants : List (ScopedGrant Role Sc)) :
    Fallible.Plays (fun s grants' => ∃ rounds : List (Assignment Role Sc × Round Role),
        rounds.map Prod.fst = assignments ∧ (∀ p ∈ rounds, reads.RoundFor p.1.role p.2) ∧
        s = rounds.flatMap (fun p => reads.events parentEvent permissionEvent p.2) ∧
        grants' = grants ++ grantsOf rounds)
      (reads.assignmentGrants assignments grants) := by
  induction assignments generalizing grants with
  | nil => exact .of_pure ⟨[], rfl, fun p hp => absurd hp List.not_mem_nil, rfl,
      (List.append_nil grants).symm⟩
  | cons a assignments ih =>
    unfold RoleReads.assignmentGrants
    rw [← bind_assoc]
    refine (plays_round honce a.role a.scope grants).bind (fun grants' => ih grants')
      (fun grants' => ?_) ?_
    · refine ⟨_, _, assignments.map fun b => (b, Round.empty b.role), map_fst_table _ _, ?_, rfl,
        rfl⟩
      intro p hp
      obtain ⟨b, -, rfl⟩ := List.mem_map.mp hp
      exact roundFor_empty reads b.role
    · rintro s₁ grants' s₂ grants'' ⟨round, hround, rfl, rfl⟩ ⟨rounds, hassigned, hrounds, rfl, rfl⟩
      refine ⟨(a, round) :: rounds, ?_, ?_, rfl, ?_⟩
      · rw [List.map_cons, hassigned]
      · exact List.forall_mem_cons.mpr ⟨hround, hrounds⟩
      · unfold grantsOf
        rw [List.flatMap_cons, List.append_assoc]

end Plays

end Rounds

/-! ## The tenant engine -/

section Tenant

variable {engine : Engine} {subject : AuthSubject}

/-- The parents of a role are read, and these are answered. -/
def parentEvent (tenant : TenantId) (role : RoleId) (parents : List RoleId) : Event EngineSig :=
  ⟨.read (.parentRoles tenant role), .ok parents⟩

/-- The permissions of a role are read, and these are answered. -/
def permissionEvent (tenant : TenantId) (role : RoleId) (permissions : List Permission) :
    Event EngineSig :=
  ⟨.read (.rolePermissions tenant role), .ok permissions⟩

/-- The event tells the role and its parents. -/
theorem injective2_parentEvent (tenant : TenantId) : Function.Injective2 (parentEvent tenant) := by
  rintro r r' ps ps' ⟨⟩
  exact ⟨rfl, rfl⟩

/-- The event tells the role and its permissions. -/
theorem injective2_permissionEvent (tenant : TenantId) :
    Function.Injective2 (permissionEvent tenant) := by
  rintro r r' ps ps' ⟨⟩
  exact ⟨rfl, rfl⟩

/-- The events of a round for an assignment of the subject. -/
def Engine.roundEvents (engine : Engine) (subject : AuthSubject) (round : Round RoleId) :
    List (Event EngineSig) :=
  (engine.roleReads subject.tenant).events (parentEvent subject.tenant)
    (permissionEvent subject.tenant) round

/-- The query gets past the statuses. -/
def admission (subject : AuthSubject) : List (Event EngineSig) :=
  [⟨.read (.tenantStatus subject.tenant), .ok .active⟩,
    ⟨.read (.membershipStatus subject), .ok .active⟩]

/-- The cache is asked for the subject's grants. -/
def Engine.lookupEvent (engine : Engine) (subject : AuthSubject)
    (cached : Option (List EffectiveGrant)) : Event EngineSig :=
  ⟨.getEffectiveGrants subject.tenant subject.principal engine.configSignature, cached⟩

/-- The cache is told the grants that were computed. -/
def Engine.storeEvent (engine : Engine) (subject : AuthSubject) (grants : List EffectiveGrant) :
    Event EngineSig :=
  ⟨.setEffectiveGrants subject.tenant subject.principal engine.configSignature grants, ()⟩

/-- What follows a miss: the assignments are read, one round is made for each of
them, and the grants are cached. -/
def Engine.computation (engine : Engine) (subject : AuthSubject)
    (rounds : List (RoleAssignment × Round RoleId)) : List (Event EngineSig) :=
  engine.lookupEvent subject none :: ⟨.read (.roleAssignments subject), .ok (rounds.map Prod.fst)⟩ ::
    (rounds.flatMap (fun p => engine.roundEvents subject p.2) ++
      [engine.storeEvent subject (grantsOf rounds)])

/-- What a query has performed when it resolves its scope, with the rounds that it
has made and what it resolves to. A query that meets a cycle or a chain beyond the
bound stops in the middle of a script. -/
inductive Engine.Script (engine : Engine) (query : ScopeQuery) :
    List (RoleAssignment × Round RoleId) → List (Event EngineSig) →
      AccessScope × Option DenyReason → Prop
  | tenantInactive : Script engine query []
      [⟨.read (.tenantStatus query.subject.tenant), .ok .inactive⟩] (.none, some .tenantInactive)
  | principalInactive : Script engine query []
      [⟨.read (.tenantStatus query.subject.tenant), .ok .active⟩,
        ⟨.read (.membershipStatus query.subject), .ok .inactive⟩] (.none, some .principalInactive)
  | cached (grants : List EffectiveGrant) : Script engine query []
      (admission query.subject ++ [engine.lookupEvent query.subject (some grants)])
      (engine.decide query grants)
  | computed {rounds : List (RoleAssignment × Round RoleId)}
      (hrounds : ∀ p ∈ rounds, (engine.roleReads query.subject.tenant).RoundFor p.1.role p.2) :
      Script engine query rounds
        (admission query.subject ++ engine.computation query.subject rounds)
        (engine.decide query (grantsOf rounds))

/-- A read is one operation, and has a result when it is answered at all. -/
theorem asks_readSource (r : SourceRead) :
    (readSource r).Asks fun a => (⟨.read r, .ok a⟩ : Event EngineSig) := by
  refine ⟨.read r, _, rfl, fun a => rfl, fun answer a h => ?_⟩
  cases answer with
  | ok b =>
    cases h
    rfl
  | error e => cases h

/-- The tenant engine reads parents and permissions by one operation each. -/
theorem readsOnce_tenant (engine : Engine) (tenant : TenantId) :
    ReadsOnce (engine.roleReads tenant) (parentEvent tenant) (permissionEvent tenant) where
  parentRoles _ := asks_readSource _
  rolePermissions _ := asks_readSource _

/-- The grants are computed in one round for each assignment. -/
theorem plays_computeGrants (engine : Engine) (subject : AuthSubject) :
    Fallible.Plays (fun s grants => ∃ rounds : List (RoleAssignment × Round RoleId),
        (∀ p ∈ rounds, (engine.roleReads subject.tenant).RoundFor p.1.role p.2) ∧
        s = ⟨.read (.roleAssignments subject), .ok (rounds.map Prod.fst)⟩ ::
          rounds.flatMap (fun p => engine.roundEvents subject p.2) ∧
        grants = grantsOf rounds)
      (engine.computeGrants subject) := by
  have : Nonempty (SourceRead.roleAssignments subject).Answer := ⟨([] : List RoleAssignment)⟩
  refine (asks_readSource (.roleAssignments subject)).plays.bind
    (fun assignments => plays_assignmentGrants (readsOnce_tenant engine subject.tenant)
      assignments []) (fun assignments => ?_) ?_
  · refine ⟨_, _, assignments.map fun b => (b, Round.empty b.role), map_fst_table _ _, ?_, rfl, rfl⟩
    intro p hp
    obtain ⟨b, -, rfl⟩ := List.mem_map.mp hp
    exact roundFor_empty _ b.role
  · rintro s₁ assignments s₂ grants rfl ⟨rounds, rfl, hrounds, rfl, rfl⟩
    exact ⟨rounds, hrounds, rfl, rfl⟩

/-- So is asking the cache. -/
theorem asks_lookup (engine : Engine) (subject : AuthSubject) :
    (getEffectiveGrants subject.tenant subject.principal engine.configSignature).Asks
      (engine.lookupEvent subject) := by
  refine ⟨_, _, rfl, fun cached => rfl, fun answer cached h => ?_⟩
  cases h
  rfl

/-- So is telling it. -/
theorem asks_store (engine : Engine) (subject : AuthSubject) (grants : List EffectiveGrant) :
    (setEffectiveGrants subject.tenant subject.principal engine.configSignature grants).Asks
      fun _ => engine.storeEvent subject grants :=
  ⟨_, _, rfl, fun _ => rfl, fun _ _ _ => rfl⟩

/-- The grants are found in the cache, or computed and put there. -/
theorem plays_effectiveGrants (engine : Engine) (subject : AuthSubject) :
    Fallible.Plays (fun s grants => s = [engine.lookupEvent subject (some grants)] ∨
        ∃ rounds : List (RoleAssignment × Round RoleId),
          (∀ p ∈ rounds, (engine.roleReads subject.tenant).RoundFor p.1.role p.2) ∧
          s = engine.computation subject rounds ∧ grants = grantsOf rounds)
      (engine.effectiveGrants subject) := by
  have hstore : Fallible.Plays (fun s grants => ∃ rounds : List (RoleAssignment × Round RoleId),
        (∀ p ∈ rounds, (engine.roleReads subject.tenant).RoundFor p.1.role p.2) ∧
        engine.lookupEvent subject none :: s = engine.computation subject rounds ∧
        grants = grantsOf rounds)
      (engine.computeGrants subject >>= fun grants =>
        setEffectiveGrants subject.tenant subject.principal engine.configSignature grants >>=
          fun _ => pure grants) := by
    refine (plays_computeGrants engine subject).bind
      (T := fun grants s grants' => s = [engine.storeEvent subject grants] ∧ grants' = grants)
      (fun grants => (asks_store engine subject grants).plays.map fun s u hs => ⟨hs, rfl⟩)
      (fun grants => ⟨_, _, rfl, rfl⟩) ?_
    rintro s₁ grants s₂ grants' ⟨rounds, hrounds, rfl, rfl⟩ ⟨rfl, rfl⟩
    exact ⟨rounds, hrounds, rfl, rfl⟩
  -- a hit ends the call, a miss goes on to compute and to store
  refine (asks_lookup engine subject).plays.bind (T := fun cached s grants =>
    (cached = some grants ∧ s = []) ∨ cached = none ∧
      ∃ rounds : List (RoleAssignment × Round RoleId),
        (∀ p ∈ rounds, (engine.roleReads subject.tenant).RoundFor p.1.role p.2) ∧
        engine.lookupEvent subject none :: s = engine.computation subject rounds ∧
        grants = grantsOf rounds) (fun cached => ?_) (fun cached => ?_) ?_
  · cases cached with
    | some grants => exact .of_pure (.inl ⟨rfl, rfl⟩)
    | none => exact hstore.weaken fun s grants h => .inr ⟨rfl, h⟩
  · cases cached with
    | some grants => exact ⟨[], grants, .inl ⟨rfl, rfl⟩⟩
    | none => exact ⟨_, _, .inr ⟨rfl, [], fun p hp => absurd hp List.not_mem_nil, rfl, rfl⟩⟩
  · rintro s₁ cached s₂ grants rfl (⟨rfl, rfl⟩ | ⟨rfl, rounds, hrounds, hs, rfl⟩)
    · exact .inl rfl
    · exact .inr ⟨rounds, hrounds, hs, rfl⟩

/-- A query that resolves its scope has played a script. -/
theorem plays_resolveScope (engine : Engine) (query : ScopeQuery) :
    Fallible.Plays (fun s resolved => ∃ rounds, engine.Script query rounds s resolved)
      (engine.resolveScope query) := by
  have hgranted : Fallible.Plays (fun s resolved => ∃ rounds,
        engine.Script query rounds (admission query.subject ++ s) resolved)
      (engine.effectiveGrants query.subject >>= fun grants => pure (engine.decide query grants)) := by
    refine (plays_effectiveGrants engine query.subject).map ?_
    rintro s grants (rfl | ⟨rounds, hrounds, rfl, rfl⟩)
    · exact ⟨[], .cached grants⟩
    · exact ⟨rounds, .computed hrounds⟩
  have hmember : Fallible.Plays (fun s resolved => ∃ rounds, engine.Script query rounds
        (⟨.read (.tenantStatus query.subject.tenant), .ok .active⟩ :: s) resolved)
      (readSource (.membershipStatus query.subject) >>= fun status : MembershipStatus =>
        if status ≠ .active then pure (.none, some .principalInactive)
        else engine.effectiveGrants query.subject >>= fun grants =>
          pure (engine.decide query grants)) := by
    have : Nonempty (SourceRead.membershipStatus query.subject).Answer :=
      ⟨MembershipStatus.active⟩
    refine (asks_readSource (.membershipStatus query.subject)).plays.bind
      (T := fun status s resolved => ∃ rounds, engine.Script query rounds
        (⟨.read (.tenantStatus query.subject.tenant), .ok .active⟩ ::
          ⟨.read (.membershipStatus query.subject), .ok status⟩ :: s) resolved)
      (fun status => ?_) (fun status => ?_) ?_
    · cases status with
      | inactive => exact .of_pure ⟨[], .principalInactive⟩
      | active => exact hgranted
    · cases status with
      | inactive => exact ⟨_, _, [], .principalInactive⟩
      | active => exact ⟨_, _, [], .cached []⟩
    · rintro s₁ status s₂ resolved rfl hscript
      exact hscript
  -- the gates one after the other: an inactive status is the end of the script
  have : Nonempty (SourceRead.tenantStatus query.subject.tenant).Answer := ⟨TenantStatus.active⟩
  refine (asks_readSource (.tenantStatus query.subject.tenant)).plays.bind
    (T := fun status s resolved => ∃ rounds, engine.Script query rounds
      (⟨.read (.tenantStatus query.subject.tenant), .ok status⟩ :: s) resolved)
    (fun status => ?_) (fun status => ?_) ?_
  · cases status with
    | inactive => exact .of_pure ⟨[], .tenantInactive⟩
    | active => exact hmember
  · cases status with
    | inactive => exact ⟨_, _, [], .tenantInactive⟩
    | active => exact ⟨_, _, [], .cached []⟩
  · rintro s₁ status s₂ resolved rfl hscript
    exact hscript

/-- The operation is this read. -/
def EngineOp.reads (r : SourceRead) : EngineOp → Bool
  | .read r' => r' = r
  | _ => false

/-- It is no other operation then. -/
theorem EngineOp.eq_of_reads {r : SourceRead} {op : EngineOp} (h : op.reads r = true) :
    op = .read r := by
  cases op with
  | read r' => exact congrArg EngineOp.read (of_decide_eq_true h)
  | _ => cases h

/-- The read is about a role. -/
def SourceRead.OfRole : SourceRead → Prop
  | .parentRoles _ _ => True
  | .rolePermissions _ _ => True
  | _ => False

/-- A round of the tenant engine repeats nothing. -/
theorem Engine.nodup_roundEvents {role : RoleId} {round : Round RoleId}
    (h : (engine.roleReads subject.tenant).RoundFor role round) :
    ((engine.roundEvents subject round).map Event.op).Nodup := by
  refine h.nodup (fun r => .read (.parentRoles subject.tenant r))
    (fun r => .read (.rolePermissions subject.tenant r)) (fun _ _ => rfl) (fun _ _ => rfl) ?_ ?_ ?_
  · intro r r' heq
    injection heq with heq
    injection heq
  · intro r r' heq
    injection heq with heq
    injection heq
  · intro r r' heq
    injection heq with heq
    cases heq

/-- What is read about a role is read at most once in each round. -/
theorem Engine.Script.countP_le {query : ScopeQuery}
    {rounds : List (RoleAssignment × Round RoleId)} {script : List (Event EngineSig)}
    {resolved : AccessScope × Option DenyReason} (h : engine.Script query rounds script resolved)
    {r : SourceRead} (hr : r.OfRole) :
    (script.map Event.op).countP (EngineOp.reads r) ≤ rounds.length := by
  have hother : ∀ op : EngineOp, op ≠ .read r → ∀ ops : List EngineOp,
      (op :: ops).countP (EngineOp.reads r) = ops.countP (EngineOp.reads r) :=
    fun op hop ops => List.countP_cons_of_neg fun hreads => hop (EngineOp.eq_of_reads hreads)
  have htenant : EngineOp.read (.tenantStatus query.subject.tenant) ≠ .read r := by
    rintro ⟨⟩
    exact hr
  have hmember : EngineOp.read (.membershipStatus query.subject) ≠ .read r := by
    rintro ⟨⟩
    exact hr
  have hassigned : EngineOp.read (.roleAssignments query.subject) ≠ .read r := by
    rintro ⟨⟩
    exact hr
  have hlookup : ∀ cached, (engine.lookupEvent query.subject cached).op ≠ .read r := by
    intro cached heq
    cases heq
  have hstore : ∀ grants, (engine.storeEvent query.subject grants).op ≠ .read r := by
    intro grants heq
    cases heq
  cases h with
  | tenantInactive => exact Nat.le_of_eq (hother _ htenant [])
  | principalInactive =>
    exact Nat.le_of_eq ((hother _ htenant _).trans (hother _ hmember []))
  | cached grants =>
    exact Nat.le_of_eq ((hother _ htenant _).trans ((hother _ hmember _).trans
      (hother _ (hlookup (some grants)) [])))
  | computed hrounds =>
    -- the other events of a computation are not about roles
    have hbound := countP_flatMap_le (S := EngineSig) (p := EngineOp.reads r)
      (fun op op' hop hop' => (EngineOp.eq_of_reads hop).trans (EngineOp.eq_of_reads hop').symm)
      fun p hp => Engine.nodup_roundEvents (hrounds p hp)
    refine Nat.le_trans (Nat.le_of_eq ?_) hbound
    show (_ :: _ :: _ :: _ :: List.map Event.op (_ ++ [_])).countP _ = _
    rw [hother _ htenant, hother _ hmember, hother _ (hlookup none), hother _ hassigned,
      List.map_append, List.countP_append]
    exact congrArg _ (hother _ (hstore (grantsOf rounds)) [])

end Tenant

/-- Whatever is answered, and however far a query has come: it keeps to a script.
All that it has performed is a beginning of the script, and all that it has been
answered before its last operation agrees with the script too. The parents of
roles are read in the order in which they are discovered in these very answers,
one round for each of the assignments that were read, and no role is read more
often than there are assignments. A query that succeeds has played a script to
its end, and replies with what comes of it. -/
theorem query_script (engine : Engine) (request : Request) (tr : List (Event EngineSig))
    (q : Prog EngineSig (Except Error Reply))
    (hpath : Prog.Path (engine.serve request).run tr q) :
    (∃ rounds script resolved, engine.Script request.query rounds script resolved ∧
      Prog.settled tr q <+: script ∧ Prog.issued tr q <+: script.map Event.op ∧
      ∀ r : SourceRead, r.OfRole →
        (Prog.issued tr q).countP (EngineOp.reads r) ≤ rounds.length) ∧
    ∀ reply, q = .ret (.ok reply) → ∃ rounds resolved,
      engine.Script request.query rounds tr resolved ∧ reply = request.reply resolved := by
  have hplays : Fallible.Plays (fun s reply => ∃ rounds resolved,
        engine.Script request.query rounds s resolved ∧ reply = request.reply resolved)
      (engine.serve request) := by
    rw [engine.serve_eq, map_eq_pure_bind]
    refine (plays_resolveScope engine request.query).map ?_
    rintro s resolved ⟨rounds, hscript⟩
    exact ⟨rounds, resolved, hscript, rfl⟩
  have hsome : ∃ s reply, ∃ rounds resolved,
      engine.Script request.query rounds s resolved ∧ reply = request.reply resolved :=
    ⟨_, _, [], _, .tenantInactive, rfl⟩
  obtain ⟨⟨script, reply, ⟨rounds, resolved, hscript, -⟩, hsettled, hissued⟩, hends⟩ :=
    hplays.path hsome hpath
  refine ⟨⟨rounds, script, resolved, hscript, hsettled, hissued, fun r hr => ?_⟩, hends⟩
  exact hissued.sublist.countP_le.trans (hscript.countP_le hr)

namespace Sample

section Diamond

variable {S : Sig} {Role : Type} [DecidableEq Role] {h : RoleHierarchy S Role}
  {parentEvent : Role → List Role → Event S} {a b c : Role}

/-- The loop asks a new parent for its own parents and goes on with them. -/
theorem path_push {st : Expansion Role} {current parent : Role} {depth : ℕ}
    {iter parents : List Role} {stack : List (Frame Role)} {tr : List (Event S)}
    {res : Except Error (Expansion Role)}
    (hst : st.stack = ⟨current, depth, parent :: iter⟩ :: stack)
    (hread : Prog.Path (h.parentRoles parent).run [parentEvent parent parents] (.ret (.ok parents)))
    (hdeep : ¬ depth + 1 > h.maxDepth) (hvisiting : parent ∉ st.visiting)
    (hvisited : parent ∉ st.visited)
    (hrest : Prog.Path (expandLoop h ⟨⟨parent, depth + 1, parents⟩ :: ⟨current, depth, iter⟩ :: stack,
      st.visited, insert parent st.visiting, st.output ++ [parent]⟩).run tr (.ret res)) :
    Prog.Path (expandLoop h st).run (parentEvent parent parents :: tr) (.ret res) := by
  rw [expandLoop_parent hst, if_neg hdeep, if_neg hvisiting, if_neg hvisited, Fallible.run_bind]
  exact hread.bind hrest

/-- How a role is expanded that inherits from another one in two ways. -/
theorem path_diamond
    (hread : ∀ r parents, Prog.Path (h.parentRoles r).run [parentEvent r parents]
      (.ret (.ok parents)))
    (hab : a ≠ b) (hac : a ≠ c) (hbc : b ≠ c) (hdeep : 2 ≤ h.maxDepth) :
    Prog.Path (expandRoles h a).run [parentEvent a [b, c], parentEvent b [c], parentEvent c []]
      (.ret (.ok [a, b, c])) := by
  have hfirst : ¬ 0 + 1 > h.maxDepth := by omega
  have hsecond : ¬ 1 + 1 > h.maxDepth := by omega
  -- out of `c` and of `b`, past `c` and out of `a`
  let st : Expansion Role := ⟨[], insert a (insert b (insert c ∅)),
    (((insert c (insert b {a} : Finset Role)).erase c).erase b).erase a, [a, b, c]⟩
  have hend : expandLoop h
      ⟨[⟨c, 2, []⟩, ⟨b, 1, []⟩, ⟨a, 0, [c]⟩], ∅, insert c (insert b {a}), [a, b, c]⟩ = pure st := by
    rw [expandLoop_pop rfl, expandLoop_pop rfl, expandLoop_parent rfl, if_neg hfirst,
      if_neg (by simp [hac.symm, hbc.symm]), if_pos (by simp), expandLoop_pop rfl,
      expandLoop_done rfl]
  have hpath : Prog.Path (pure st : Fallible S Error (Expansion Role)).run [] (.ret (.ok st)) :=
    .refl _
  rw [← hend] at hpath
  have hloop : Prog.Path (expandLoop h (Expansion.start a [b, c])).run
      [parentEvent b [c], parentEvent c []] (.ret (.ok st)) := by
    refine path_push rfl (hread b [c]) hfirst ?_ ?_ (path_push rfl (hread c []) hsecond ?_ ?_ hpath)
    · simp [Expansion.start, hab.symm]
    · simp [Expansion.start]
    · simp [Expansion.start, hac.symm, hbc.symm]
    · simp [Expansion.start]
  unfold expandRoles expandFrom
  rw [bind_assoc, Fallible.run_bind]
  refine (hread a [b, c]).bind ?_
  show Prog.Path (expandLoop h (Expansion.start a [b, c]) >>= fun st => pure st.output).run _ _
  rw [Fallible.run_bind]
  exact hloop.bind (.refl _)

/-- The loops for a single assignment. -/
theorem path_assigned {Sc : Type} {reads : RoleReads S Role} {role : Role} {scope : Sc}
    {roles : List Role} {grants : List (ScopedGrant Role Sc)} {tr₁ tr₂ : List (Event S)}
    (hroles : Prog.Path (reads.rolesOf role).run tr₁ (.ret (.ok roles)))
    (hgrants : Prog.Path (reads.roleGrants scope roles []).run tr₂ (.ret (.ok grants))) :
    Prog.Path (reads.assignmentGrants [⟨role, scope⟩] []).run (tr₁ ++ tr₂) (.ret (.ok grants)) := by
  unfold RoleReads.assignmentGrants
  rw [Fallible.run_bind]
  refine hroles.bind (f := Fallible.andThen _) ?_
  rw [← List.append_nil tr₂]
  show Prog.Path (ExceptT.run (_ >>= _)) _ _
  rw [Fallible.run_bind]
  exact hgrants.bind (.refl _)

end Diamond

def teller : RoleId := ⟨['k'], by decide⟩
def reader : RoleId := ⟨['r'], by decide⟩

/-- The clerk inherits from the teller and the reader, and the teller from the
reader, too. -/
def inheriting : Round RoleId where
  parents := [(clerk, [teller, reader]), (teller, [reader]), (reader, [])]
  permissions := [(clerk, []), (teller, []), (reader, [read])]

def following : Engine := Engine.build ⟨true, false, 4⟩

/-- The reader is read once, although two roles name it. -/
def inherited : List (Event EngineSig) :=
  admission subject ++ following.computation subject [(⟨clerk, .tenant⟩, inheriting)]

/-- The search discovers the clerk, the teller and the reader. -/
theorem roundFor_inheriting : (following.roleReads tenant).RoundFor clerk inheriting where
  expands := by
    have hclerk := Discovers.start.next (pending_start clerk) [teller, reader]
    have hteller := hclerk.next (v := teller) (show pending clerk _ = teller :: [reader] from rfl)
      [reader]
    have hreader := hteller.next (v := reader) (show pending clerk _ = reader :: [reader] from rfl) []
    exact ⟨hreader, rfl⟩
  same := rfl

/-- The clerk's query may go just so. -/
theorem path_inherited : Prog.Path (following.serve (.accessibleScope query)).run inherited
    (.ret (.ok (.scope (.tenant tenant)))) := by
  have hroles : Prog.Path (expandRoles (following.tenantRoleHierarchy tenant) clerk).run
      [parentEvent tenant clerk [teller, reader], parentEvent tenant teller [reader],
        parentEvent tenant reader []] (.ret (.ok [clerk, teller, reader])) :=
    path_diamond (fun r parents => .step (S := EngineSig) _ (.refl _)) (by decide) (by decide)
      (by decide) (by decide)
  have hgrants : Prog.Path ((following.roleReads tenant).roleGrants GrantScope.tenant
      [clerk, teller, reader] []).run
      [permissionEvent tenant clerk [], permissionEvent tenant teller [],
        permissionEvent tenant reader [read]] (.ret (.ok [⟨reader, read, .tenant⟩])) :=
    .step (S := EngineSig) _ (.step (S := EngineSig) _ (.step (S := EngineSig) _ (.refl _)))
  have hcompute : Prog.Path (following.computeGrants subject).run
      (⟨.read (.roleAssignments subject), .ok [⟨clerk, .tenant⟩]⟩ ::
        following.roundEvents subject inheriting) (.ret (.ok [⟨reader, read, .tenant⟩])) :=
    .step (S := EngineSig) _ (path_assigned hroles hgrants)
  have heffective : Prog.Path (following.effectiveGrants subject).run
      (following.computation subject [(⟨clerk, .tenant⟩, inheriting)])
      (.ret (.ok [⟨reader, read, .tenant⟩])) := by
    refine .step (S := EngineSig) _ ?_
    show Prog.Path (ExceptT.run (following.computeGrants subject >>= _)) _ _
    rw [Fallible.run_bind]
    exact hcompute.bind (.step (S := EngineSig) _ (.refl _))
  have hresolve : Prog.Path (following.resolveScope query).run inherited
      (.ret (.ok (.tenant tenant, none))) := by
    refine .step (S := EngineSig) _ (.step (S := EngineSig) _ ?_)
    show Prog.Path (ExceptT.run (following.effectiveGrants subject >>= fun grants =>
      pure (following.decide query grants))) (following.computation _ _ ++ []) _
    rw [Fallible.run_bind]
    exact heffective.bind (.refl _)
  rw [following.serve_eq, Fallible.run_map]
  show Prog.Path _ (inherited ++ []) _
  exact hresolve.bind (.refl _)

/-- And it is of no other rounds than these. -/
theorem rounds_of_inherited {rounds : List (RoleAssignment × Round RoleId)}
    {resolved : AccessScope × Option DenyReason}
    (h : following.Script query rounds inherited resolved) :
    rounds = [(⟨clerk, .tenant⟩, inheriting)] := by
  generalize hs : inherited = script at h
  cases h with
  | tenantInactive => cases hs
  | principalInactive => cases hs
  | cached grants => cases hs
  | computed hrounds =>
    injection (List.append_right_inj (admission subject)).mp hs with _ hcomputed
    injection hcomputed with hassigned hevents
    injection hassigned with _ hassigned
    injection hassigned with hassigned
    refine rounds_eq_singleton roundFor_inheriting hrounds (injective2_parentEvent tenant)
      (injective2_permissionEvent tenant) hassigned.symm ?_
    exact (List.append_inj' hevents rfl).1.symm

end Sample

/-- The clerk's query reads the parents of the clerk, the teller and the reader,
then the permissions of the same three, and the reader only once. -/
theorem query_script_sample :
    ∃ resolved, Sample.following.Script Sample.query
      [(⟨Sample.clerk, .tenant⟩, Sample.inheriting)] Sample.inherited resolved ∧
      Reply.scope (.tenant Sample.tenant) = (Request.accessibleScope Sample.query).reply resolved ∧
      (Sample.inherited.map Event.op).countP
        (EngineOp.reads (.parentRoles Sample.tenant Sample.reader)) ≤ 1 := by
  obtain ⟨-, hends⟩ := query_script Sample.following (.accessibleScope Sample.query)
    Sample.inherited _ Sample.path_inherited
  obtain ⟨rounds, resolved, hscript, hreply⟩ := hends _ rfl
  -- the run leaves no choice of the rounds
  have hrounds := Sample.rounds_of_inherited hscript
  subst hrounds
  exact ⟨resolved, hscript, hreply, hscript.countP_le trivial⟩

/-! ## The platform engine -/

section Platform

variable {engine : PlatformEngine} {subject : PlatformSubject}

/-- The parents of a platform role are read, and these are answered. -/
def platformParentEvent (role : PlatformRoleId) (parents : List PlatformRoleId) :
    Event PlatformSig :=
  ⟨.platformParentRoles role, .ok parents⟩

/-- The permissions of a platform role are read, and these are answered. -/
def platformPermissionEvent (role : PlatformRoleId) (permissions : List Permission) :
    Event PlatformSig :=
  ⟨.platformRolePermissions role, .ok permissions⟩

/-- The event tells the role and its parents. -/
theorem injective2_platformParentEvent : Function.Injective2 platformParentEvent := by
  rintro r r' ps ps' ⟨⟩
  exact ⟨rfl, rfl⟩

/-- The event tells the role and its permissions. -/
theorem injective2_platformPermissionEvent : Function.Injective2 platformPermissionEvent := by
  rintro r r' ps ps' ⟨⟩
  exact ⟨rfl, rfl⟩

/-- The events of a round for an assignment of the principal. -/
def PlatformEngine.roundEvents (engine : PlatformEngine) (round : Round PlatformRoleId) :
    List (Event PlatformSig) :=
  engine.roleReads.events platformParentEvent platformPermissionEvent round

/-- The principal's assignments are read, and one round is made for each of them. -/
def PlatformEngine.computation (engine : PlatformEngine) (subject : PlatformSubject)
    (rounds : List (PlatformRoleAssignment × Round PlatformRoleId)) : List (Event PlatformSig) :=
  ⟨.platformRoleAssignments subject, .ok (rounds.map Prod.fst)⟩ ::
    rounds.flatMap fun p => engine.roundEvents p.2

/-- What a platform query has read when it finds the grants that match, with the
rounds that it has made. -/
inductive PlatformEngine.Script (engine : PlatformEngine) (subject : PlatformSubject)
    (required : Permission) : List (PlatformRoleAssignment × Round PlatformRoleId) →
      List (Event PlatformSig) → List PlatformEffectiveGrant → Prop
  | inactive : Script engine subject required []
      [⟨.platformPrincipalStatus subject, .ok .inactive⟩] []
  | computed {rounds : List (PlatformRoleAssignment × Round PlatformRoleId)}
      (hrounds : ∀ p ∈ rounds, engine.roleReads.RoundFor p.1.role p.2) :
      Script engine subject required rounds
        (⟨.platformPrincipalStatus subject, .ok .active⟩ :: engine.computation subject rounds)
        ((grantsOf rounds).filter fun grant =>
          grant.matchesPermission required engine.config.enableWildcard)

/-- As for the reads of the tenant's source. -/
theorem asks_readPlatform (r : PlatformRead) :
    (readPlatform r).Asks fun a => (⟨r, .ok a⟩ : Event PlatformSig) := by
  refine ⟨r, _, rfl, fun a => rfl, fun answer a h => ?_⟩
  cases answer with
  | ok b =>
    cases h
    rfl
  | error e => cases h

/-- The platform engine reads parents and permissions by one operation each. -/
theorem readsOnce_platform (engine : PlatformEngine) :
    ReadsOnce engine.roleReads platformParentEvent platformPermissionEvent where
  parentRoles _ := asks_readPlatform _
  rolePermissions _ := asks_readPlatform _

/-- The grants are computed in one round for each assignment, too. -/
theorem plays_effectivePlatformGrants (engine : PlatformEngine) (subject : PlatformSubject) :
    Fallible.Plays (fun s grants =>
        ∃ rounds : List (PlatformRoleAssignment × Round PlatformRoleId),
          (∀ p ∈ rounds, engine.roleReads.RoundFor p.1.role p.2) ∧
          s = engine.computation subject rounds ∧
          grants = grantsOf rounds)
      (engine.effectiveGrants subject) := by
  have : Nonempty (PlatformRead.platformRoleAssignments subject).Answer :=
    ⟨([] : List PlatformRoleAssignment)⟩
  refine (asks_readPlatform (.platformRoleAssignments subject)).plays.bind
    (fun assignments => plays_assignmentGrants (readsOnce_platform engine) assignments [])
    (fun assignments => ?_) ?_
  · refine ⟨_, _, assignments.map fun b => (b, Round.empty b.role), map_fst_table _ _, ?_, rfl, rfl⟩
    intro p hp
    obtain ⟨b, -, rfl⟩ := List.mem_map.mp hp
    exact roundFor_empty _ b.role
  · rintro s₁ assignments s₂ grants rfl ⟨rounds, rfl, hrounds, rfl, rfl⟩
    exact ⟨rounds, hrounds, rfl, rfl⟩

/-- A query that finds its matching grants has played a script. -/
theorem plays_matchingGrants (engine : PlatformEngine) (subject : PlatformSubject)
    (required : Permission) :
    Fallible.Plays (fun s grants => ∃ rounds, engine.Script subject required rounds s grants)
      (engine.matchingGrants subject required) := by
  have hactive : Fallible.Plays (fun s grants => ∃ rounds, engine.Script subject required rounds
        (⟨.platformPrincipalStatus subject, .ok .active⟩ :: s) grants)
      (engine.effectiveGrants subject >>= fun grants => pure (grants.filter fun grant =>
        grant.matchesPermission required engine.config.enableWildcard)) := by
    refine (plays_effectivePlatformGrants engine subject).map ?_
    rintro s grants ⟨rounds, hrounds, rfl, rfl⟩
    exact ⟨rounds, .computed hrounds⟩
  have : Nonempty (PlatformRead.platformPrincipalStatus subject).Answer :=
    ⟨PlatformPrincipalStatus.active⟩
  refine (asks_readPlatform (.platformPrincipalStatus subject)).plays.bind
    (T := fun status s grants => ∃ rounds, engine.Script subject required rounds
      (⟨.platformPrincipalStatus subject, .ok status⟩ :: s) grants)
    (fun status => ?_) (fun status => ?_) ?_
  · cases status with
    | inactive => exact .of_pure ⟨[], .inactive⟩
    | active => exact hactive
  · cases status with
    | inactive => exact ⟨_, _, [], .inactive⟩
    | active => exact ⟨_, _, [], .computed fun p hp => absurd hp List.not_mem_nil⟩
  · rintro s₁ status s₂ grants rfl hscript
    exact hscript

/-- The read is about a role. -/
def PlatformRead.OfRole : PlatformRead → Prop
  | .platformParentRoles _ => True
  | .platformRolePermissions _ => True
  | _ => False

/-- A round of the platform engine repeats nothing. -/
theorem PlatformEngine.nodup_roundEvents {role : PlatformRoleId} {round : Round PlatformRoleId}
    (h : engine.roleReads.RoundFor role round) :
    ((engine.roundEvents round).map Event.op).Nodup := by
  refine h.nodup PlatformRead.platformParentRoles .platformRolePermissions (fun _ _ => rfl)
    (fun _ _ => rfl) ?_ ?_ ?_
  · intro r r' heq
    injection heq
  · intro r r' heq
    injection heq
  · intro r r' heq
    cases heq

/-- What is read about a role is read at most once in each round. -/
theorem PlatformEngine.Script.count_le {required : Permission}
    {rounds : List (PlatformRoleAssignment × Round PlatformRoleId)}
    {script : List (Event PlatformSig)} {grants : List PlatformEffectiveGrant}
    (h : engine.Script subject required rounds script grants) {r : PlatformRead} (hr : r.OfRole) :
    (script.map Event.op).count r ≤ rounds.length := by
  have hstatus : PlatformRead.platformPrincipalStatus subject ≠ r := by
    rintro rfl
    exact hr
  have hassigned : PlatformRead.platformRoleAssignments subject ≠ r := by
    rintro rfl
    exact hr
  cases h with
  | inactive => exact Nat.le_of_eq (List.count_cons_of_ne hstatus)
  | computed hrounds =>
    have hbound : ((rounds.flatMap fun p => engine.roundEvents p.2).map Event.op).count r ≤
        rounds.length :=
      countP_flatMap_le (S := PlatformSig)
        (fun op op' hop hop' => (eq_of_beq hop).trans (eq_of_beq hop').symm)
        fun p hp => PlatformEngine.nodup_roundEvents (hrounds p hp)
    unfold PlatformEngine.computation
    rw [List.map_cons, List.map_cons, List.count_cons_of_ne hstatus,
      List.count_cons_of_ne hassigned]
    exact hbound

/-- Looking at the grants is not an operation. -/
theorem PlatformEngine.run_serve (engine : PlatformEngine) (request : PlatformRequest) :
    (engine.serve request).run =
      (engine.matchingGrants request.subject request.permission).run >>= fun res =>
        .ret (res >>= fun grants => request.reply (grants.map ScopedGrant.scope)) := by
  rw [engine.serve_eq, Fallible.run_bind]
  congr 1
  funext res
  cases res <;> rfl

end Platform

/-- The same for a platform query, which knows no cache: the status, the
assignments, and then one round for each of them. -/
theorem platform_script (engine : PlatformEngine) (request : PlatformRequest)
    (tr : List (Event PlatformSig)) (q : Prog PlatformSig (Except Error PlatformReply))
    (hpath : Prog.Path (engine.serve request).run tr q) :
    (∃ rounds script grants,
      engine.Script request.subject request.permission rounds script grants ∧
      Prog.settled tr q <+: script ∧ Prog.issued tr q <+: script.map Event.op ∧
      ∀ r : PlatformRead, r.OfRole → (Prog.issued tr q).count r ≤ rounds.length) ∧
    ∀ reply, q = .ret (.ok reply) → ∃ rounds grants,
      engine.Script request.subject request.permission rounds tr grants ∧
      request.reply (grants.map ScopedGrant.scope) = .ok reply := by
  rw [engine.run_serve] at hpath
  obtain ⟨q', hmatching, rfl⟩ := hpath.of_map
  obtain ⟨⟨script, grants, ⟨rounds, hscript⟩, hsettled, hissued⟩, hends⟩ :=
    (plays_matchingGrants engine request.subject request.permission).path
      ⟨_, _, [], .inactive⟩ hmatching
  rw [Prog.settled_map, Prog.issued_map]
  refine ⟨⟨rounds, script, grants, hscript, hsettled, hissued, fun r hr => ?_⟩, fun reply hq => ?_⟩
  · exact (hissued.sublist.count_le r).trans (hscript.count_le hr)
  · cases q' with
    | call op k => cases hq
    | ret res =>
      injection hq with hq
      cases res with
      | error e => cases hq
      | ok grants =>
        obtain ⟨rounds, hscript⟩ := hends grants rfl
        exact ⟨rounds, grants, hscript, hq⟩

namespace Sample

def desk : PlatformRoleId := ⟨['d'], by decide⟩
def viewer : PlatformRoleId := ⟨['v'], by decide⟩

/-- The support inherits from the desk and the viewer, and the desk from the
viewer, too. -/
def supporting : Round PlatformRoleId where
  parents := [(support, [desk, viewer]), (desk, [viewer]), (viewer, [])]
  permissions := [(support, []), (desk, []), (viewer, [read])]

def operating : PlatformEngine := ⟨⟨true, false, 4⟩⟩

def supported : List (Event PlatformSig) :=
  ⟨.platformPrincipalStatus operator, .ok .active⟩ ::
    operating.computation operator [(⟨support, .platform⟩, supporting)]

theorem roundFor_supporting : operating.roleReads.RoundFor support supporting where
  expands := by
    have hsupport := Discovers.start.next (pending_start support) [desk, viewer]
    have hdesk := hsupport.next (v := desk) (show pending support _ = desk :: [viewer] from rfl)
      [viewer]
    have hviewer := hdesk.next (v := viewer) (show pending support _ = viewer :: [viewer] from rfl)
      []
    exact ⟨hviewer, rfl⟩
  same := rfl

theorem path_supported : Prog.Path (operating.serve (.canPlatform ⟨operator, read⟩)).run supported
    (.ret (.ok (.decision .allow))) := by
  have hroles : Prog.Path (expandRoles operating.platformRoleHierarchy support).run
      [platformParentEvent support [desk, viewer], platformParentEvent desk [viewer],
        platformParentEvent viewer []] (.ret (.ok [support, desk, viewer])) :=
    path_diamond (fun r parents => .step (S := PlatformSig) _ (.refl _)) (by decide) (by decide)
      (by decide) (by decide)
  have hgrants : Prog.Path (operating.roleReads.roleGrants PlatformGrantScope.platform
      [support, desk, viewer] []).run
      [platformPermissionEvent support [], platformPermissionEvent desk [],
        platformPermissionEvent viewer [read]] (.ret (.ok [⟨viewer, read, .platform⟩])) :=
    .step (S := PlatformSig) _ (.step (S := PlatformSig) _ (.step (S := PlatformSig) _ (.refl _)))
  have hround : Prog.Path (operating.roleReads.assignmentGrants
      [⟨support, PlatformGrantScope.platform⟩] []).run (operating.roundEvents supporting)
      (.ret (.ok [⟨viewer, read, .platform⟩])) :=
    path_assigned hroles hgrants
  have heffective : Prog.Path (operating.effectiveGrants operator).run
      (operating.computation operator [(⟨support, .platform⟩, supporting)])
      (.ret (.ok [⟨viewer, read, .platform⟩])) :=
    .step (S := PlatformSig) _ hround
  have hmatching : Prog.Path (operating.matchingGrants operator read).run supported
      (.ret (.ok [⟨viewer, read, .platform⟩])) := by
    refine .step (S := PlatformSig) _ ?_
    show Prog.Path (ExceptT.run (operating.effectiveGrants operator >>= fun grants =>
      pure (grants.filter _))) (operating.computation _ _ ++ []) _
    rw [Fallible.run_bind]
    exact heffective.bind (.refl _)
  rw [operating.run_serve]
  show Prog.Path _ (supported ++ []) _
  exact hmatching.bind (.refl _)

theorem rounds_of_supported {rounds : List (PlatformRoleAssignment × Round PlatformRoleId)}
    {grants : List PlatformEffectiveGrant}
    (h : operating.Script operator read rounds supported grants) :
    rounds = [(⟨support, .platform⟩, supporting)] := by
  generalize hs : supported = script at h
  cases h with
  | inactive => cases hs
  | computed hrounds =>
    injection hs with _ hcomputed
    injection hcomputed with hassigned hevents
    injection hassigned with _ hassigned
    injection hassigned with hassigned
    exact rounds_eq_singleton roundFor_supporting hrounds injective2_platformParentEvent
      injective2_platformPermissionEvent hassigned.symm
      (hevents.symm.trans (List.append_nil _))

end Sample

/-- The same for the operator, who is allowed by what the viewer may do. -/
theorem platform_script_sample :
    ∃ grants, Sample.operating.Script Sample.operator Sample.read
      [(⟨Sample.support, .platform⟩, Sample.supporting)] Sample.supported grants ∧
      (PlatformRequest.canPlatform ⟨Sample.operator, Sample.read⟩).reply
        (grants.map ScopedGrant.scope) = .ok (.decision .allow) := by
  obtain ⟨-, hends⟩ := platform_script Sample.operating (.canPlatform ⟨Sample.operator, Sample.read⟩)
    Sample.supported _ Sample.path_supported
  obtain ⟨rounds, grants, hscript, hreply⟩ := hends _ rfl
  have hrounds := Sample.rounds_of_supported hscript
  subst hrounds
  exact ⟨grants, hscript, hreply⟩

end RsTenant
