import Mathlib.Data.Set.Lattice
import RsTenant.Grants

/-! # Grants from data that changes while it is read

The loops of `Grants.lean` read one role at a time. When somebody changes the
data in between, there need be no single state of it that explains the grants
which come out. What can be said of them is said with two sets of data: all of
`lo` is there whenever the loops look, and whatever they see is in `hi`.

`triple_assignmentGrants` is that the grants derived from `lo` come out, and
nothing that cannot be derived from `hi`. The roles are expanded into a list
that is closed under the edges of `lo` and reached by those of `hi`
(`Tracks`).
-/

namespace RsTenant

open Interact

/-! ## Data and what follows from it -/

/-- One piece of the data that a subject's grants come from. -/
inductive Datum (Role Sc : Type) where
  | assigned (a : Assignment Role Sc)
  | parent (role parent : Role)
  | permission (role : Role) (permission : Permission)

namespace Datum

variable {Role Sc : Type} (enableRoleHierarchy : Bool) (data : Set (Datum Role Sc))

/-- The roles an assigned role stands for. -/
def Reaches (role r : Role) : Prop :=
  if enableRoleHierarchy then Relation.ReflTransGen (fun v w => .parent v w ∈ data) role r
  else r = role

/-- The grants of an assigned role. -/
structure OfAssignment (a : Assignment Role Sc) (g : ScopedGrant Role Sc) : Prop where
  scope : g.scope = a.scope
  reaches : Reaches enableRoleHierarchy data a.role g.role
  permission : .permission g.role g.permission ∈ data

/-- The grants that follow from the data. -/
def grants : Set (ScopedGrant Role Sc) :=
  {g | ∃ a, .assigned a ∈ data ∧ OfAssignment enableRoleHierarchy data a g}

/-- The assignment is there, and some role it stands for has a permission that
covers the required one. -/
def Matched (wildcard : Bool) (required : Permission) (a : Assignment Role Sc) : Prop :=
  .assigned a ∈ data ∧ ∃ r, Reaches enableRoleHierarchy data a.role r ∧
    ∃ p, .permission r p ∈ data ∧ p.matches required wildcard = true

variable {enableRoleHierarchy data} {data' : Set (Datum Role Sc)}

theorem Reaches.mono (hsub : data ⊆ data') {role r : Role}
    (h : Reaches enableRoleHierarchy data role r) : Reaches enableRoleHierarchy data' role r := by
  unfold Reaches at h ⊢
  split
  · rename_i hon
    rw [if_pos hon] at h
    exact Relation.ReflTransGen.mono (fun v w hvw => hsub hvw) _ _ h
  · rename_i hoff
    rwa [if_neg hoff] at h

theorem Matched.mono (hsub : data ⊆ data') {wildcard : Bool} {required : Permission}
    {a : Assignment Role Sc} (h : Matched enableRoleHierarchy data wildcard required a) :
    Matched enableRoleHierarchy data' wildcard required a := by
  rcases h with ⟨ha, r, hreach, p, hp, hmatch⟩
  exact ⟨hsub ha, r, hreach.mono hsub, p, hsub hp, hmatch⟩

/-- A grant of the data that matches comes from a matched assignment, and the
other way round. -/
theorem exists_grant_iff {wildcard : Bool} {required : Permission} {scope : Sc} :
    (∃ g ∈ Datum.grants enableRoleHierarchy data, g.matchesPermission required wildcard = true ∧
        g.scope = scope) ↔
      ∃ a, Matched enableRoleHierarchy data wildcard required a ∧ a.scope = scope := by
  constructor
  · rintro ⟨g, ⟨a, ha, hscope, hreach, hperm⟩, hmatch, rfl⟩
    exact ⟨a, ⟨ha, g.role, hreach, g.permission, hperm, hmatch⟩, hscope.symm⟩
  · rintro ⟨a, ⟨ha, r, hreach, p, hp, hmatch⟩, rfl⟩
    exact ⟨⟨r, p, a.scope⟩, ⟨a, ha, rfl, hreach, hp⟩, hmatch, rfl⟩

/-! Data that facts are made of. -/

section Facts

variable {Role Sc : Type} {data : Set (Datum Role Sc)}

theorem reaches_iff {parents : Role → List Role}
    (hparents : ∀ r p, p ∈ parents r ↔ .parent r p ∈ data) (on : Bool) (role r : Role) :
    Reach on parents role r ↔ Reaches on data role r := by
  have hedge : (fun v w => w ∈ parents v) = fun v w => .parent v w ∈ data := by
    funext v w
    exact propext (hparents v w)
  unfold Reach Reaches
  split
  · show Relation.ReflTransGen (fun v w => w ∈ parents v) role r ↔ _
    rw [hedge]
  · exact Iff.rfl

theorem matched_iff {facts : RoleFacts Role}
    (hparents : ∀ r p, p ∈ facts.parentRoles r ↔ .parent r p ∈ data)
    (hpermissions : ∀ r p, p ∈ facts.rolePermissions r ↔ .permission r p ∈ data) (on wildcard : Bool)
    (required : Permission) (a : Assignment Role Sc) :
    .assigned a ∈ data ∧ RsTenant.Matched on wildcard facts required a ↔
      Matched on data wildcard required a := by
  unfold Matched RsTenant.Matched
  refine and_congr Iff.rfl (exists_congr fun r => and_congr (reaches_iff hparents on a.role r) ?_)
  exact exists_congr fun p => and_congr (hpermissions r p) Iff.rfl

end Facts

end Datum

/-- The grants are all those of `lo`, and only those of `hi`. -/
structure Between {Role Sc : Type} (enableRoleHierarchy : Bool) (lo hi : Set (Datum Role Sc))
    (grants : List (ScopedGrant Role Sc)) : Prop where
  complete : ∀ g ∈ Datum.grants enableRoleHierarchy lo, g ∈ grants
  sound : ∀ g ∈ grants, g ∈ Datum.grants enableRoleHierarchy hi

/-- So are the scopes that match. -/
theorem Between.scopes {Role Sc : Type} {on : Bool} {lo hi : Set (Datum Role Sc)}
    {grants : List (ScopedGrant Role Sc)} (h : Between on lo hi grants) (required : Permission)
    (wildcard : Bool) :
    (∀ a, Datum.Matched on lo wildcard required a →
      a.scope ∈ RsTenant.matchedScopes grants required wildcard) ∧
    ∀ scope ∈ RsTenant.matchedScopes grants required wildcard,
      ∃ a, Datum.Matched on hi wildcard required a ∧ a.scope = scope := by
  constructor
  · intro a ha
    obtain ⟨g, hg, hmatch, hscope⟩ := Datum.exists_grant_iff.mpr ⟨a, ha, rfl⟩
    exact List.mem_map.mpr ⟨g, List.mem_filter.mpr ⟨h.complete g hg, hmatch⟩, hscope⟩
  · intro scope hmem
    obtain ⟨g, hfilter, hscope⟩ := List.mem_map.mp hmem
    obtain ⟨hg, hmatch⟩ := List.mem_filter.mp hfilter
    exact Datum.exists_grant_iff.mp ⟨g, h.sound g hg, hmatch, hscope⟩

/-! ## Data seen at several moments -/

section Moments

variable {Role Sc σ : Type}

/-- What all of the states have. -/
def always (states : List σ) (data : σ → Set (Datum Role Sc)) : Set (Datum Role Sc) :=
  ⋂ s ∈ states, data s

/-- What some of the states have. -/
def ever (states : List σ) (data : σ → Set (Datum Role Sc)) : Set (Datum Role Sc) :=
  ⋃ s ∈ states, data s

variable {states : List σ} {data : σ → Set (Datum Role Sc)}

theorem mem_of_always {d : Datum Role Sc} (hd : d ∈ always states data) {s : σ}
    (hs : s ∈ states) : d ∈ data s :=
  Set.mem_iInter₂.mp hd s hs

theorem mem_ever {d : Datum Role Sc} {s : σ} (hs : s ∈ states) (hd : d ∈ data s) :
    d ∈ ever states data :=
  Set.mem_iUnion₂.mpr ⟨s, hs, hd⟩

theorem subset_always {lo : Set (Datum Role Sc)} (h : ∀ s ∈ states, lo ⊆ data s) :
    lo ⊆ always states data :=
  Set.subset_iInter₂ h

theorem ever_subset {hi : Set (Datum Role Sc)} (h : ∀ s ∈ states, data s ⊆ hi) :
    ever states data ⊆ hi :=
  Set.iUnion₂_subset h

/-- What is read in one of the states is all that is always there, and only what
is there at some time. -/
theorem between_of_read {α : Type} {datum : α → Datum Role Sc} {xs : List α} {s : σ}
    (hs : s ∈ states) (hread : ∀ x, x ∈ xs ↔ datum x ∈ data s) (x : α) :
    (datum x ∈ always states data → x ∈ xs) ∧ (x ∈ xs → datum x ∈ ever states data) :=
  ⟨fun hx => (hread x).mpr (mem_of_always hx hs), fun hx => mem_ever hs ((hread x).mp hx)⟩

end Moments

/-! ## Expansion -/

variable {S : Sig} {Role Sc : Type}

/-- Under the rely every role is read between `lo` and `hi`. -/
structure ReadsBetween (reads : RoleReads S Role) (A : (op : S.Op) → S.Resp op → Prop)
    (G : S.Op → Prop) (lo hi : Set (Datum Role Sc)) : Prop where
  parentRoles : ∀ r, (reads.hierarchy.parentRoles r).run.Triple A G
    (Fallible.OnOk fun parents =>
      ∀ p, (.parent r p ∈ lo → p ∈ parents) ∧ (p ∈ parents → .parent r p ∈ hi))
  rolePermissions : ∀ r, (reads.rolePermissions r).run.Triple A G
    (Fallible.OnOk fun permissions =>
      ∀ p, (.permission r p ∈ lo → p ∈ permissions) ∧ (p ∈ permissions → .permission r p ∈ hi))

/-- What holds of the loop at every iteration: every role listed is reached in
`hi`, and an edge of `lo` that leaves a listed role ends in one or is still
among the parents of a frame. -/
structure Tracks (lo hi : Set (Datum Role Sc)) (root : Role) (st : Expansion Role) : Prop where
  root_mem : root ∈ st.output
  visited : ∀ r ∈ st.visited, r ∈ st.output
  stack : ∀ f ∈ st.stack, f.role ∈ st.output ∧ ∀ p ∈ f.iter, .parent f.role p ∈ hi
  reached : ∀ r ∈ st.output, Relation.ReflTransGen (fun v w => .parent v w ∈ hi) root r
  pending : ∀ r ∈ st.output, ∀ p, .parent r p ∈ lo →
    p ∈ st.output ∨ ∃ f ∈ st.stack, f.role = r ∧ p ∈ f.iter

section Tracks

variable {lo hi : Set (Datum Role Sc)} {root current parent : Role} {depth : ℕ}
  {iter parents : List Role} {stack : List (Frame Role)} {st : Expansion Role}

theorem Tracks.start {visited visiting : Finset Role} (hvisited : ∀ r ∈ visited, r = root)
    (hread : ∀ p, (.parent root p ∈ lo → p ∈ parents) ∧ (p ∈ parents → .parent root p ∈ hi)) :
    Tracks lo hi root ⟨[⟨root, 0, parents⟩], visited, visiting, [root]⟩ where
  root_mem := List.mem_singleton.mpr rfl
  visited r hr := List.mem_singleton.mpr (hvisited r hr)
  stack f hf := by
    rw [List.mem_singleton.mp hf]
    exact ⟨List.mem_singleton.mpr rfl, fun p hp => (hread p).2 hp⟩
  reached r hr := by
    rw [List.mem_singleton.mp hr]
  pending r hr p hp := by
    rw [List.mem_singleton] at hr
    subst hr
    exact .inr ⟨_, List.mem_singleton.mpr rfl, rfl, (hread p).1 hp⟩

/-- A parent that has been listed already is passed over. -/
theorem Tracks.skip (h : Tracks lo hi root st)
    (hst : st.stack = ⟨current, depth, parent :: iter⟩ :: stack) (hparent : parent ∈ st.output) :
    Tracks lo hi root ⟨⟨current, depth, iter⟩ :: stack, st.visited, st.visiting, st.output⟩ where
  root_mem := h.root_mem
  visited := h.visited
  stack f hf := by
    have htop := h.stack ⟨current, depth, parent :: iter⟩ (hst ▸ List.mem_cons_self)
    rcases List.mem_cons.mp hf with rfl | hf
    · exact ⟨htop.1, fun p hp => htop.2 p (List.mem_cons_of_mem _ hp)⟩
    · exact h.stack f (hst ▸ List.mem_cons_of_mem _ hf)
  reached := h.reached
  pending r hr p hp := by
    rcases h.pending r hr p hp with hout | ⟨f, hf, hrole, hiter⟩
    · exact .inl hout
    -- the parent passed over is listed, all others of the frame are still to come
    · rw [hst] at hf
      rcases List.mem_cons.mp hf with rfl | hf
      · rcases List.mem_cons.mp hiter with rfl | hiter
        · exact .inl hparent
        · exact .inr ⟨_, List.mem_cons_self, hrole, hiter⟩
      · exact .inr ⟨f, List.mem_cons_of_mem _ hf, hrole, hiter⟩

/-- A new parent is listed, with its own parents still to come. -/
theorem Tracks.push [DecidableEq Role] (h : Tracks lo hi root st)
    (hst : st.stack = ⟨current, depth, parent :: iter⟩ :: stack)
    (hread : ∀ p, (.parent parent p ∈ lo → p ∈ parents) ∧
      (p ∈ parents → .parent parent p ∈ hi)) :
    Tracks lo hi root ⟨⟨parent, depth + 1, parents⟩ :: ⟨current, depth, iter⟩ :: stack,
      st.visited, insert parent st.visiting, st.output ++ [parent]⟩ where
  root_mem := List.mem_append_left _ h.root_mem
  visited r hr := List.mem_append_left _ (h.visited r hr)
  stack f hf := by
    have htop := h.stack ⟨current, depth, parent :: iter⟩ (hst ▸ List.mem_cons_self)
    rcases List.mem_cons.mp hf with rfl | hf
    · exact ⟨List.mem_append_right _ (List.mem_singleton.mpr rfl), fun p hp => (hread p).2 hp⟩
    · rcases List.mem_cons.mp hf with rfl | hf
      · exact ⟨List.mem_append_left _ htop.1, fun p hp => htop.2 p (List.mem_cons_of_mem _ hp)⟩
      · have hframe := h.stack f (hst ▸ List.mem_cons_of_mem _ hf)
        exact ⟨List.mem_append_left _ hframe.1, hframe.2⟩
  reached r hr := by
    have htop := h.stack ⟨current, depth, parent :: iter⟩ (hst ▸ List.mem_cons_self)
    rcases List.mem_append.mp hr with hr | hr
    · exact h.reached r hr
    · rw [List.mem_singleton] at hr
      subst hr
      exact (h.reached _ htop.1).tail (htop.2 _ List.mem_cons_self)
  pending r hr p hp := by
    rcases List.mem_append.mp hr with hr | hr
    · rcases h.pending r hr p hp with hout | ⟨f, hf, hrole, hiter⟩
      · exact .inl (List.mem_append_left _ hout)
      · rw [hst] at hf
        rcases List.mem_cons.mp hf with rfl | hf
        · rcases List.mem_cons.mp hiter with rfl | hiter
          · exact .inl (List.mem_append_right _ (List.mem_singleton.mpr rfl))
          · exact .inr ⟨_, List.mem_cons_of_mem _ List.mem_cons_self, hrole, hiter⟩
        · exact .inr ⟨f, List.mem_cons_of_mem _ (List.mem_cons_of_mem _ hf), hrole, hiter⟩
    · rw [List.mem_singleton] at hr
      subst hr
      exact .inr ⟨_, List.mem_cons_self, rfl, (hread p).1 hp⟩

/-- A frame with no parents left has nothing pending. -/
theorem Tracks.pop [DecidableEq Role] (h : Tracks lo hi root st)
    (hst : st.stack = ⟨current, depth, []⟩ :: stack) :
    Tracks lo hi root
      ⟨stack, insert current st.visited, st.visiting.erase current, st.output⟩ where
  root_mem := h.root_mem
  visited r hr := by
    rcases Finset.mem_insert.mp hr with rfl | hr
    · exact (h.stack _ (hst ▸ List.mem_cons_self)).1
    · exact h.visited r hr
  stack f hf := h.stack f (hst ▸ List.mem_cons_of_mem _ hf)
  reached := h.reached
  pending r hr p hp := by
    rcases h.pending r hr p hp with hout | ⟨f, hf, hrole, hiter⟩
    · exact .inl hout
    · rw [hst] at hf
      rcases List.mem_cons.mp hf with rfl | hf
      · exact absurd hiter List.not_mem_nil
      · exact .inr ⟨f, hf, hrole, hiter⟩

/-- When the stack is empty, the output is closed under the edges of `lo`. -/
theorem Tracks.mem_of_reaches (h : Tracks lo hi root st) (hst : st.stack = []) {r : Role}
    (hr : Relation.ReflTransGen (fun v w => .parent v w ∈ lo) root r) : r ∈ st.output := by
  induction hr with
  | refl => exact h.root_mem
  | tail _ hedge ih =>
    rcases h.pending _ ih _ hedge with hout | ⟨f, hf, -⟩
    · exact hout
    · rw [hst] at hf
      exact absurd hf List.not_mem_nil

end Tracks

section Loops

variable [DecidableEq Role] {reads : RoleReads S Role}
  {A : (op : S.Op) → S.Resp op → Prop} {G : S.Op → Prop} {lo hi : Set (Datum Role Sc)}
  (hreads : ReadsBetween reads A G lo hi)
include hreads

theorem triple_expandLoop (root : Role) (st : Expansion Role) (hst : Tracks lo hi root st) :
    (expandLoop reads.hierarchy st).run.Triple A G
      (Fallible.OnOk fun st' => Tracks lo hi root st' ∧ st'.stack = []) := by
  -- the cases are the branches of the loop; the two refusals end it in an error
  induction st using expandLoop.induct reads.hierarchy with
  | case1 st hnil =>
    rw [expandLoop_done hnil]
    exact ⟨hst, hnil⟩
  | case2 st current depth parent iter stack hcons hdeep =>
    rw [expandLoop_parent hcons, if_pos hdeep]
    trivial
  | case3 st current depth parent iter stack hcons hdeep hvisiting =>
    rw [expandLoop_parent hcons, if_neg hdeep, if_pos hvisiting]
    trivial
  | case4 st current depth parent iter stack hcons hdeep hvisiting hvisited ih =>
    rw [expandLoop_parent hcons, if_neg hdeep, if_neg hvisiting, if_pos hvisited]
    exact ih (hst.skip hcons (hst.visited _ hvisited))
  | case5 st current depth parent iter stack hcons hdeep hvisiting hvisited ih =>
    rw [expandLoop_parent hcons, if_neg hdeep, if_neg hvisiting, if_neg hvisited]
    apply Fallible.triple_ok_bind (hreads.parentRoles parent)
    intro parents hparents
    exact ih parents (hst.push hcons hparents)
  | case6 st current depth stack hcons ih =>
    rw [expandLoop_pop hcons]
    exact ih (hst.pop hcons)

/-- The roles an assigned role stands for lie between what `lo` and what `hi`
reach. -/
theorem triple_rolesOf (role : Role) :
    (reads.rolesOf role).run.Triple A G (Fallible.OnOk fun roles =>
      ∀ r, (Datum.Reaches reads.enableRoleHierarchy lo role r → r ∈ roles) ∧
        (r ∈ roles → Datum.Reaches reads.enableRoleHierarchy hi role r)) := by
  unfold RoleReads.rolesOf Datum.Reaches
  split
  · rename_i hon
    unfold expandRoles expandFrom
    rw [bind_assoc]
    apply Fallible.triple_ok_bind (hreads.parentRoles role)
    intro parents hparents
    have hstart : Tracks lo hi role
        ⟨[⟨role, 0, parents⟩], ∅, insert role ∅, [] ++ [role]⟩ :=
      Tracks.start (by simp) hparents
    apply Fallible.triple_ok_bind (triple_expandLoop hreads role _ hstart)
    rintro st ⟨hst, hnil⟩ r
    exact ⟨hst.mem_of_reaches hnil, hst.reached r⟩
  · rename_i hoff
    intro r
    simp

omit [DecidableEq Role] in
/-- What the roles of one assignment add. -/
theorem triple_roleGrants (scope : Sc) (roles : List Role) (grants : List (ScopedGrant Role Sc)) :
    (reads.roleGrants scope roles grants).run.Triple A G (Fallible.OnOk fun out => ∀ g,
      (g ∈ grants ∨ (g.scope = scope ∧ g.role ∈ roles ∧ .permission g.role g.permission ∈ lo) →
        g ∈ out) ∧
      (g ∈ out →
        g ∈ grants ∨ (g.scope = scope ∧ g.role ∈ roles ∧
          .permission g.role g.permission ∈ hi))) := by
  induction roles generalizing grants with
  | nil =>
    intro g
    simp
  | cons role roles ih =>
    apply Fallible.triple_ok_bind (hreads.rolePermissions role)
    intro permissions hpermissions
    refine Fallible.triple_ok_weaken (ih _) fun out hout g => ?_
    -- what this role adds
    have hadded : g ∈ grants ++ permissions.map (fun p => (⟨role, p, scope⟩ : ScopedGrant Role Sc))
        ↔ g ∈ grants ∨ (g.role = role ∧ g.scope = scope ∧ g.permission ∈ permissions) := by
      rw [List.mem_append, List.mem_map]
      constructor
      · rintro (hg | ⟨p, hp, rfl⟩)
        · exact .inl hg
        · exact .inr ⟨rfl, rfl, hp⟩
      · rintro (hg | ⟨rfl, rfl, hp⟩)
        · exact .inl hg
        · exact .inr ⟨g.permission, hp, rfl⟩
    have hnext := hout g
    rw [hadded] at hnext
    constructor
    · rintro (hg | ⟨hscope, hrole, hperm⟩)
      · exact hnext.1 (.inl (.inl hg))
      · rcases List.mem_cons.mp hrole with hrole | hrole
        · exact hnext.1 (.inl (.inr ⟨hrole, hscope, (hpermissions _).1 (hrole ▸ hperm)⟩))
        · exact hnext.1 (.inr ⟨hscope, hrole, hperm⟩)
    · intro hg
      rcases hnext.2 hg with (hg | ⟨hrole, hscope, hperm⟩) | ⟨hscope, hrole, hperm⟩
      · exact .inl hg
      · refine .inr ⟨hscope, hrole ▸ List.mem_cons_self, ?_⟩
        rw [hrole]
        exact (hpermissions _).2 hperm
      · exact .inr ⟨hscope, List.mem_cons_of_mem _ hrole, hperm⟩

/-- The loops return all the grants that follow from the assignments in `lo`,
and only such as follow from them in `hi`. -/
theorem triple_assignmentGrants (assignments : List (Assignment Role Sc))
    (grants : List (ScopedGrant Role Sc)) :
    (reads.assignmentGrants assignments grants).run.Triple A G (Fallible.OnOk fun out => ∀ g,
      (g ∈ grants ∨ (∃ a ∈ assignments, Datum.OfAssignment reads.enableRoleHierarchy lo a g) →
        g ∈ out) ∧
      (g ∈ out →
        g ∈ grants ∨ ∃ a ∈ assignments, Datum.OfAssignment reads.enableRoleHierarchy hi a g)) := by
  induction assignments generalizing grants with
  | nil =>
    intro g
    simp
  | cons a assignments ih =>
    apply Fallible.triple_ok_bind (triple_rolesOf hreads a.role)
    intro roles hroles
    apply Fallible.triple_ok_bind (triple_roleGrants hreads a.scope roles grants)
    intro grants' hgrants
    refine Fallible.triple_ok_weaken (ih grants') fun out hout g => ?_
    constructor
    · rintro (hg | ⟨b, hb, hof⟩)
      · exact (hout g).1 (.inl ((hgrants g).1 (.inl hg)))
      · rcases List.mem_cons.mp hb with rfl | hb
        · have hrole := (hroles g.role).1 hof.reaches
          exact (hout g).1 (.inl ((hgrants g).1 (.inr ⟨hof.scope, hrole, hof.permission⟩)))
        · exact (hout g).1 (.inr ⟨b, hb, hof⟩)
    · intro hg
      rcases (hout g).2 hg with hg | ⟨b, hb, hof⟩
      · rcases (hgrants g).2 hg with hg | ⟨hscope, hrole, hperm⟩
        · exact .inl hg
        · exact .inr ⟨a, List.mem_cons_self, hscope, (hroles g.role).2 hrole, hperm⟩
      · exact .inr ⟨b, List.mem_cons_of_mem _ hb, hof⟩

/-- With the assignments read in between as well, so are the grants. -/
theorem triple_between {assignments : List (Assignment Role Sc)}
    (hassignments : ∀ a, (.assigned a ∈ lo → a ∈ assignments) ∧
      (a ∈ assignments → .assigned a ∈ hi)) :
    (reads.assignmentGrants assignments []).run.Triple A G
      (Fallible.OnOk (Between reads.enableRoleHierarchy lo hi)) := by
  refine Fallible.triple_ok_weaken (triple_assignmentGrants hreads assignments []) ?_
  intro out hout
  constructor
  · rintro g ⟨a, ha, hof⟩
    exact (hout g).1 (.inr ⟨a, (hassignments a).1 ha, hof⟩)
  · intro g hg
    rcases (hout g).2 hg with hnil | ⟨a, ha, hof⟩
    · exact absurd hnil List.not_mem_nil
    · exact ⟨a, (hassignments a).2 ha, hof⟩

end Loops

end RsTenant
