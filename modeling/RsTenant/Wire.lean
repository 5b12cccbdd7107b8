import RsTenant.Lib.Serde
import RsTenant.PlatformScope

/-! # Wire formats of the scopes

Identifiers and paths travel as texts, sets and roots as sequences, scopes as
maps whose field `type` names the variant. Each scope has a wire enumeration of
its own, from which decoding goes through the constructors again: nothing is
built that the constructors would not build.

The raw data of a wire value are the texts in it. What is accepted, and what an
accepted value covers, is said about the texts alone.
-/

namespace RsTenant

open Ordered Serde

/-! ## Texts -/

/-- An identifier travels as its text. -/
def Id.serialize {kind : IdKind} (id : Id kind) : Value := .str id.val

/-- The text is parsed again, whatever the kind of the identifier. -/
def Id.deserialize (kind : IdKind) : Decoder Error (Id kind) :=
  validated deserializeStr (Id.parse kind)

/-- The decoder of the kind that the scopes over tenants contain. -/
def TenantId.deserialize : Decoder Error TenantId := Id.deserialize .tenant

/-- A path travels as its text, too. -/
def ScopePath.serialize (p : ScopePath) : Value := .str p.val

/-- Only a text that parses is decoded to a path. -/
def ScopePath.deserialize : Decoder Error ScopePath := validated deserializeStr ScopePath.parse

/-! ## Scopes inside one tenant -/

/-- Roots travel as the sequence of their paths. -/
def ScopeRoots.serialize (r : ScopeRoots) : Value := serializeVec ScopePath.serialize r.roots

/-- The decoded paths are compacted by `ScopeRoots.new`. -/
def ScopeRoots.deserialize : Decoder Error ScopeRoots :=
  validated (deserializeVec ScopePath.deserialize) ScopeRoots.new

/-- The wire form of `GrantScope`: its roots are still a plain list. -/
inductive GrantScopeWire where
  | tenant
  | paths (roots : List ScopePath)

/-- The variant is named by the tag, its list by the field `roots`. -/
def GrantScopeWire.serialize : GrantScopeWire → Value
  | .tenant => tagged "tenant" []
  | .paths roots => tagged "paths" [("roots", serializeVec ScopePath.serialize roots)]

/-- The decoders of the two variants, under their tags. -/
def GrantScopeWire.deserialize : Decoder Error GrantScopeWire :=
  deserializeTagged
    [("tenant", fun _ => .ok .tenant),
      ("paths", fun v =>
        .paths <$> deserializeField "roots" (deserializeVec ScopePath.deserialize) v)]

/-- A grant scope is encoded through its wire form. -/
def GrantScope.serialize : GrantScope → Value
  | .tenant => GrantScopeWire.tenant.serialize
  | .paths roots => (GrantScopeWire.paths roots.roots).serialize

/-- The roots are validated here, after the whole variant has been decoded. -/
def GrantScopeWire.intoScope : GrantScopeWire → Except Error GrantScope
  | .tenant => .ok .tenant
  | .paths roots => GrantScope.ofPaths roots

/-- Decode the wire form, then validate it. -/
def GrantScope.deserialize : Decoder Error GrantScope :=
  validated GrantScopeWire.deserialize GrantScopeWire.intoScope

/-! ## Scopes of platform roles -/

/-- A tenant set travels as the sequence of its identifiers. -/
def TenantSet.serialize (set : TenantSet) : Value := serializeVec Id.serialize set.tenants

/-- The decoded tenants are sorted and deduplicated by `TenantSet.new`. -/
def TenantSet.deserialize : Decoder Error TenantSet :=
  validated (deserializeVec TenantId.deserialize) TenantSet.new

/-- An entry travels as a map of its two fields. -/
def TenantScopedRoots.serialize (entry : TenantScopedRoots) : Value :=
  .map [("tenant", entry.tenant.serialize), ("roots", entry.roots.serialize)]

/-- The fields are looked up by name, and others are ignored. -/
def TenantScopedRoots.deserialize : Decoder Error TenantScopedRoots := fun v => do
  let tenant ← deserializeField "tenant" TenantId.deserialize v
  let roots ← deserializeField "roots" ScopeRoots.deserialize v
  return ⟨tenant, roots⟩

/-- The roots of several tenants travel as the sequence of the entries. -/
def TenantScopeRoots.serialize (r : TenantScopeRoots) : Value :=
  serializeVec TenantScopedRoots.serialize r.entries

/-- The decoded entries are joined tenant by tenant by `TenantScopeRoots.new`. -/
def TenantScopeRoots.deserialize : Decoder Error TenantScopeRoots :=
  validated (deserializeVec TenantScopedRoots.deserialize) TenantScopeRoots.new

/-- The wire form of `PlatformGrantScope`: the parts are validated types already. -/
inductive PlatformGrantScopeWire where
  | platform
  | allTenants
  | tenants (tenants : TenantSet)
  | tenantPaths (entries : TenantScopeRoots)

/-- Two of the variants carry a field, the others only their tag. -/
def PlatformGrantScopeWire.serialize : PlatformGrantScopeWire → Value
  | .platform => tagged "platform" []
  | .allTenants => tagged "all_tenants" []
  | .tenants set => tagged "tenants" [("tenants", set.serialize)]
  | .tenantPaths r => tagged "tenant_paths" [("entries", r.serialize)]

/-- The decoders of the four variants, under their tags. -/
def PlatformGrantScopeWire.deserialize : Decoder Error PlatformGrantScopeWire :=
  deserializeTagged
    [("platform", fun _ => .ok .platform),
      ("all_tenants", fun _ => .ok .allTenants),
      ("tenants", fun v => .tenants <$> deserializeField "tenants" TenantSet.deserialize v),
      ("tenant_paths", fun v =>
        .tenantPaths <$> deserializeField "entries" TenantScopeRoots.deserialize v)]

/-- A platform grant scope is encoded through its wire form. -/
def PlatformGrantScope.serialize : PlatformGrantScope → Value
  | .platform => PlatformGrantScopeWire.platform.serialize
  | .allTenants => PlatformGrantScopeWire.allTenants.serialize
  | .tenants set => (PlatformGrantScopeWire.tenants set).serialize
  | .tenantPaths r => (PlatformGrantScopeWire.tenantPaths r).serialize

/-- No variant can fail to become a scope. -/
def PlatformGrantScopeWire.intoScope : PlatformGrantScopeWire → PlatformGrantScope
  | .platform => .platform
  | .allTenants => .allTenants
  | .tenants set => .tenants set
  | .tenantPaths r => .tenantPaths r

/-- The parts have been validated while they were decoded. -/
def PlatformGrantScope.deserialize : Decoder Error PlatformGrantScope := fun v =>
  PlatformGrantScopeWire.intoScope <$> PlatformGrantScopeWire.deserialize v

/-- The wire form of `TenantDataAccessScope`: the lists are plain ones in both. -/
inductive TenantDataAccessScopeWire where
  | none
  | allTenants
  | tenants (tenants : List TenantId)
  | tenantPaths (entries : List TenantScopedRoots)

/-- The same tags as those of the platform grants, with `none` for `platform`. -/
def TenantDataAccessScopeWire.serialize : TenantDataAccessScopeWire → Value
  | .none => tagged "none" []
  | .allTenants => tagged "all_tenants" []
  | .tenants ts => tagged "tenants" [("tenants", serializeVec Id.serialize ts)]
  | .tenantPaths entries =>
    tagged "tenant_paths" [("entries", serializeVec TenantScopedRoots.serialize entries)]

/-- The decoders of the four variants; lists are left as they come. -/
def TenantDataAccessScopeWire.deserialize : Decoder Error TenantDataAccessScopeWire :=
  deserializeTagged
    [("none", fun _ => .ok .none),
      ("all_tenants", fun _ => .ok .allTenants),
      ("tenants", fun v =>
        .tenants <$> deserializeField "tenants" (deserializeVec TenantId.deserialize) v),
      ("tenant_paths", fun v =>
        .tenantPaths <$>
          deserializeField "entries" (deserializeVec TenantScopedRoots.deserialize) v)]

/-- A data access scope is encoded through its wire form. -/
def TenantDataAccessScope.serialize : TenantDataAccessScope → Value
  | .none => TenantDataAccessScopeWire.none.serialize
  | .allTenants => TenantDataAccessScopeWire.allTenants.serialize
  | .tenants ts => (TenantDataAccessScopeWire.tenants ts).serialize
  | .tenantPaths entries => (TenantDataAccessScopeWire.tenantPaths entries).serialize

/-- The lists are normalised here and not where they are decoded. -/
def TenantDataAccessScopeWire.intoScope :
    TenantDataAccessScopeWire → Except Error TenantDataAccessScope
  | .none => .ok .none
  | .allTenants => .ok .allTenants
  | .tenants ts => (TenantSet.new ts).map fun set => .tenants set.tenants
  | .tenantPaths entries => (TenantScopeRoots.new entries).map fun r => .tenantPaths r.entries

/-- Decode the wire form, then normalise it. -/
def TenantDataAccessScope.deserialize : Decoder Error TenantDataAccessScope :=
  validated TenantDataAccessScopeWire.deserialize TenantDataAccessScopeWire.intoScope

/-! ## Round trips -/

/-- The text of an identifier parses to that identifier. -/
@[simp] theorem Id.deserialize_serialize {kind : IdKind} (id : Id kind) :
    Id.deserialize kind id.serialize = .ok id :=
  validated_eq_ok rfl id.parse_val

@[simp] theorem ScopePath.deserialize_serialize (p : ScopePath) :
    ScopePath.deserialize p.serialize = .ok p :=
  validated_eq_ok rfl p.parse_val

/-- Roots are compacted already, so validating them again changes nothing. -/
@[simp] theorem ScopeRoots.deserialize_serialize (r : ScopeRoots) :
    ScopeRoots.deserialize r.serialize = .ok r :=
  validated_eq_ok (deserializeVec_serializeVec fun p _ => p.deserialize_serialize) r.new_roots

@[simp] theorem TenantSet.deserialize_serialize (set : TenantSet) :
    TenantSet.deserialize set.serialize = .ok set :=
  validated_eq_ok (deserializeVec_serializeVec fun t _ => t.deserialize_serialize) set.new_tenants

/-- Both fields of an entry are found again. -/
@[simp] theorem TenantScopedRoots.deserialize_serialize (entry : TenantScopedRoots) :
    TenantScopedRoots.deserialize entry.serialize = .ok entry := by
  have htenant : entry.serialize.HasField "tenant" entry.tenant.serialize := ⟨_, rfl, rfl⟩
  have hroots : entry.serialize.HasField "roots" entry.roots.serialize := ⟨_, rfl, rfl⟩
  have hdecode : TenantId.deserialize entry.tenant.serialize = .ok entry.tenant :=
    entry.tenant.deserialize_serialize
  simp only [TenantScopedRoots.deserialize, deserializeField_eq htenant,
    deserializeField_eq hroots, hdecode, ScopeRoots.deserialize_serialize]
  rfl

@[simp] theorem TenantScopeRoots.deserialize_serialize (r : TenantScopeRoots) :
    TenantScopeRoots.deserialize r.serialize = .ok r :=
  validated_eq_ok (deserializeVec_serializeVec fun e _ => e.deserialize_serialize) r.new_entries

/-- The tag chooses the variant that was encoded. -/
theorem GrantScopeWire.deserialize_serialize (w : GrantScopeWire) :
    GrantScopeWire.deserialize w.serialize = .ok w := by
  cases w with
  | tenant => exact deserializeTagged_eq_ok ⟨_, rfl, rfl⟩ rfl rfl
  | paths roots =>
    have hroots : deserializeVec ScopePath.deserialize (serializeVec ScopePath.serialize roots) =
        .ok roots :=
      deserializeVec_serializeVec fun p _ => p.deserialize_serialize
    exact deserializeTagged_eq_ok ⟨_, rfl, rfl⟩ rfl
      (map_deserializeField_eq ⟨_, rfl, rfl⟩ hroots)

/-- The wire form comes back, and its roots pass the validation unchanged. -/
@[simp] theorem GrantScope.deserialize_serialize (g : GrantScope) :
    GrantScope.deserialize g.serialize = .ok g := by
  cases g with
  | tenant => exact validated_eq_ok GrantScopeWire.tenant.deserialize_serialize rfl
  | paths r =>
    refine validated_eq_ok (GrantScopeWire.paths r.roots).deserialize_serialize ?_
    simp only [GrantScopeWire.intoScope, GrantScope.ofPaths, ScopeRoots.new_roots]
    rfl

/-- The tag chooses the variant, and its part has a round trip of its own. -/
theorem PlatformGrantScopeWire.deserialize_serialize (w : PlatformGrantScopeWire) :
    PlatformGrantScopeWire.deserialize w.serialize = .ok w := by
  cases w with
  | platform => exact deserializeTagged_eq_ok ⟨_, rfl, rfl⟩ rfl rfl
  | allTenants => exact deserializeTagged_eq_ok ⟨_, rfl, rfl⟩ rfl rfl
  | tenants set =>
    exact deserializeTagged_eq_ok ⟨_, rfl, rfl⟩ rfl
      (map_deserializeField_eq ⟨_, rfl, rfl⟩ set.deserialize_serialize)
  | tenantPaths r =>
    exact deserializeTagged_eq_ok ⟨_, rfl, rfl⟩ rfl
      (map_deserializeField_eq ⟨_, rfl, rfl⟩ r.deserialize_serialize)

@[simp] theorem PlatformGrantScope.deserialize_serialize (g : PlatformGrantScope) :
    PlatformGrantScope.deserialize g.serialize = .ok g := by
  cases g <;>
    simp only [PlatformGrantScope.deserialize, PlatformGrantScope.serialize,
      PlatformGrantScopeWire.deserialize_serialize] <;> rfl

/-- Any lists come back as they were, normal or not. -/
theorem TenantDataAccessScopeWire.deserialize_serialize (w : TenantDataAccessScopeWire) :
    TenantDataAccessScopeWire.deserialize w.serialize = .ok w := by
  cases w with
  | none => exact deserializeTagged_eq_ok ⟨_, rfl, rfl⟩ rfl rfl
  | allTenants => exact deserializeTagged_eq_ok ⟨_, rfl, rfl⟩ rfl rfl
  | tenants ts =>
    have hts : deserializeVec TenantId.deserialize (serializeVec Id.serialize ts) = .ok ts :=
      deserializeVec_serializeVec fun t _ => t.deserialize_serialize
    exact deserializeTagged_eq_ok ⟨_, rfl, rfl⟩ rfl
      (map_deserializeField_eq ⟨_, rfl, rfl⟩ hts)
  | tenantPaths entries =>
    have hentries : deserializeVec TenantScopedRoots.deserialize
        (serializeVec TenantScopedRoots.serialize entries) = .ok entries :=
      deserializeVec_serializeVec fun e _ => e.deserialize_serialize
    exact deserializeTagged_eq_ok ⟨_, rfl, rfl⟩ rfl
      (map_deserializeField_eq ⟨_, rfl, rfl⟩ hentries)

/-- A merged scope lists its tenants and its entries in normal form, so decoding
leaves them as they are. -/
theorem TenantDataAccessScope.deserialize_serialize {scopes : List PlatformGrantScope}
    {s : TenantDataAccessScope} (h : TenantDataAccessScope.merge scopes = .ok s) :
    TenantDataAccessScope.deserialize s.serialize = .ok s := by
  have hwire := TenantDataAccessScopeWire.deserialize_serialize
  rcases TenantDataAccessScope.merge_normal h with rfl | rfl | ⟨set, rfl⟩ | ⟨r, rfl⟩
  · exact validated_eq_ok (hwire .none) rfl
  · exact validated_eq_ok (hwire .allTenants) rfl
  · refine validated_eq_ok (hwire (.tenants set.tenants)) ?_
    simp only [TenantDataAccessScopeWire.intoScope, TenantSet.new_tenants]
    rfl
  · refine validated_eq_ok (hwire (.tenantPaths r.entries)) ?_
    simp only [TenantDataAccessScopeWire.intoScope, TenantScopeRoots.new_entries]
    rfl

/-! ## Raw data

What the texts of a wire value describe, when its fields are present and of the
right kind.
-/

/-- The wire value of a list of texts. -/
def texts (raw : List Str) : Value := .seq (raw.map .str)

/-- An entry names a tenant and lists root paths. -/
def DescribesEntry (v : Value) (raw : Str × List Str) : Prop :=
  v.HasField "tenant" (.str raw.1) ∧ v.HasField "roots" (texts raw.2)

/-- The sequence has an entry for each of the raw ones, in their order. -/
def DescribesEntries (v : Value) (raw : List (Str × List Str)) : Prop :=
  ∃ items, v = .seq items ∧ List.Forall₂ DescribesEntry items raw

/-- The texts of a scope inside one tenant. -/
inductive RawGrantScope where
  | tenant
  | paths (roots : List Str)
  | other (tag : Str)

/-- The value has the fields that the variant needs, and may have others. -/
def RawGrantScope.Describes (v : Value) : RawGrantScope → Prop
  | .tenant => v.HasField "type" (.str "tenant".toList)
  | .paths raw => v.HasField "type" (.str "paths".toList) ∧ v.HasField "roots" (texts raw)
  | .other tag => v.HasField "type" (.str tag) ∧ tag ∉ ["tenant", "paths"].map String.toList

/-- The texts of a scope over tenants. -/
inductive RawTenantScope where
  | bare
  | allTenants
  | tenants (tenants : List Str)
  | tenantPaths (entries : List (Str × List Str))
  | other (tag : Str)

/-- The two formats over tenants differ in one tag, `bare`. -/
def RawTenantScope.Describes (bare : String) (v : Value) : RawTenantScope → Prop
  | .bare => v.HasField "type" (.str bare.toList)
  | .allTenants => v.HasField "type" (.str "all_tenants".toList)
  | .tenants raw =>
    v.HasField "type" (.str "tenants".toList) ∧ v.HasField "tenants" (texts raw)
  | .tenantPaths raw =>
    v.HasField "type" (.str "tenant_paths".toList) ∧
      ∃ w, v.HasField "entries" w ∧ DescribesEntries w raw
  | .other tag =>
    v.HasField "type" (.str tag) ∧
      tag ∉ [bare, "all_tenants", "tenants", "tenant_paths"].map String.toList

/-! ### What is accepted -/

/-- Roots are accepted when every text is a path and there is one. -/
def RootsAccepted (raw : List Str) : Prop :=
  (∀ s ∈ raw, ∃ p, ScopePath.parse s = .ok p) ∧ raw ≠ []

/-- Tenants are accepted when every text is an identifier and there is one. -/
def TenantsAccepted (raw : List Str) : Prop :=
  (∀ s ∈ raw, ∃ t, TenantId.parse s = .ok t) ∧ raw ≠ []

/-- Entries are accepted when both parts of each are and there is one. -/
def EntriesAccepted (raw : List (Str × List Str)) : Prop :=
  (∀ e ∈ raw, (∃ t, TenantId.parse e.1 = .ok t) ∧ RootsAccepted e.2) ∧ raw ≠ []

/-- An unknown tag is never accepted. -/
def RawGrantScope.Accepted : RawGrantScope → Prop
  | .tenant => True
  | .paths raw => RootsAccepted raw
  | .other _ => False

/-- The two formats over tenants accept the same raw data. -/
def RawTenantScope.Accepted : RawTenantScope → Prop
  | .bare => True
  | .allTenants => True
  | .tenants raw => TenantsAccepted raw
  | .tenantPaths raw => EntriesAccepted raw
  | .other _ => False

/-! ### What is covered -/

/-- One of the texts is a root that gives access to `target`. -/
def RootsCover (raw : List Str) (target : ScopePath) : Prop :=
  ∃ s ∈ raw, ∃ p, ScopePath.parse s = .ok p ∧ p.allows target

/-- One of the entries for the tenant has such a root. -/
def EntriesCover (raw : List (Str × List Str)) (tenant : TenantId) (target : ScopePath) : Prop :=
  ∃ e ∈ raw, TenantId.parse e.1 = .ok tenant ∧ RootsCover e.2 target

/-- The roots are in normal form and cover what the texts cover. -/
structure RootsMatch (roots : List ScopePath) (raw : List Str) : Prop where
  nonempty : roots ≠ []
  compacted : Antichain ScopePath.allows roots
  covers : ∀ target, (∃ p ∈ roots, p.allows target) ↔ RootsCover raw target

/-- The tenants are in normal form and are those of the texts. -/
structure TenantsMatch (tenants : List TenantId) (raw : List Str) : Prop where
  nonempty : tenants ≠ []
  ascending : Ascending tenants
  covers : ∀ t, t ∈ tenants ↔ ∃ s ∈ raw, TenantId.parse s = .ok t

/-- The entries are in normal form, one for each tenant of the raw entries, and
cover what those cover. -/
structure EntriesMatch (entries : List TenantScopedRoots) (raw : List (Str × List Str)) :
    Prop where
  nonempty : entries ≠ []
  ascending : Ascending (entries.map TenantScopedRoots.tenant)
  compacted : ∀ e ∈ entries, e.roots.roots ≠ [] ∧ Antichain ScopePath.allows e.roots.roots
  tenants : ∀ t, (∃ e ∈ entries, e.tenant = t) ↔ ∃ e ∈ raw, TenantId.parse e.1 = .ok t
  covers : ∀ t target, CoversIn entries t target ↔ EntriesCover raw t target

/-- The decoded scope is of the tagged variant and its roots match the texts. -/
def GrantScope.Matches : GrantScope → RawGrantScope → Prop
  | .tenant, .tenant => True
  | .paths r, .paths raw => RootsMatch r.roots raw
  | _, _ => False

/-- The same for a platform grant. -/
def PlatformGrantScope.Matches : PlatformGrantScope → RawTenantScope → Prop
  | .platform, .bare => True
  | .allTenants, .allTenants => True
  | .tenants set, .tenants raw => TenantsMatch set.tenants raw
  | .tenantPaths r, .tenantPaths raw => EntriesMatch r.entries raw
  | _, _ => False

/-- The same for a data access scope, whose lists are plain. -/
def TenantDataAccessScope.Matches : TenantDataAccessScope → RawTenantScope → Prop
  | .none, .bare => True
  | .allTenants, .allTenants => True
  | .tenants ts, .tenants raw => TenantsMatch ts raw
  | .tenantPaths entries, .tenantPaths raw => EntriesMatch entries raw
  | _, _ => False

/-! ## Contracts of the decoders -/

/-- A text yields what it parses to. -/
theorem yields_parsed {α : Type} {s : Str} {parse : Str → Except Error α} :
    Yields (parse s) (∃ x, parse s = .ok x) fun x => parse s = .ok x :=
  ⟨Iff.rfl, fun _ => id⟩

/-- A list of texts is decoded when each of them parses. -/
theorem yields_texts {α : Type} (parse : Str → Except Error α) (raw : List Str) :
    Yields (deserializeVec (validated deserializeStr parse) (texts raw))
      (∀ s ∈ raw, ∃ x, parse s = .ok x)
      fun xs => List.Forall₂ (fun x s => parse s = .ok x) xs raw := by
  refine Yields.vec ?_
  rw [List.forall₂_map_left_iff, List.forall₂_same]
  intro s _
  exact yields_parsed.mapError _

/-- What a list of texts that parse stands for. -/
theorem exists_parsed {α : Type} {parse : Str → Except Error α} {xs : List α} {raw : List Str}
    (h : List.Forall₂ (fun x s => parse s = .ok x) xs raw) {P : α → Prop} :
    (∃ x ∈ xs, P x) ↔ ∃ s ∈ raw, ∃ x, parse s = .ok x ∧ P x :=
  exists_mem_iff h fun x s hx => by simp [hx]

/-- Compacting keeps what the texts cover. -/
theorem ScopeRoots.yields_new {paths : List ScopePath} {raw : List Str}
    (h : List.Forall₂ (fun p s => ScopePath.parse s = .ok p) paths raw) :
    Yields (ScopeRoots.new paths) (raw ≠ []) fun r => RootsMatch r.roots raw := by
  rw [← ne_nil_iff h]
  constructor
  · constructor
    · rintro ⟨r, hr⟩
      exact (ScopeRoots.new_eq_ok.mp hr).1
    · exact ScopeRoots.new_of_ne_nil
  · intro r hr
    have hroots := (ScopeRoots.new_eq_ok.mp hr).2
    refine ⟨r.nonempty, r.compacted, fun target => ?_⟩
    rw [← hroots, compactPaths_eq_roots, ScopePath.allows_covering.roots_cover]
    exact exists_parsed h

/-- Sorting keeps the tenants that the texts name. -/
theorem TenantSet.yields_new {tenants : List TenantId} {raw : List Str}
    (h : List.Forall₂ (fun t s => TenantId.parse s = .ok t) tenants raw) :
    Yields (TenantSet.new tenants) (raw ≠ []) fun set => TenantsMatch set.tenants raw := by
  rw [← ne_nil_iff h]
  constructor
  · constructor
    · rintro ⟨set, hset⟩
      exact (TenantSet.new_eq_ok.mp hset).1
    · exact TenantSet.new_of_ne_nil
  · intro set hset
    have htenants := (TenantSet.new_eq_ok.mp hset).2
    refine ⟨set.nonempty, set.ascending, fun t => ?_⟩
    have hmem : t ∈ tenants ↔ ∃ t' ∈ tenants, t' = t := by simp
    rw [← htenants, mem_collect, hmem, exists_parsed h]
    simp only [exists_eq_right]

/-- The decoded entry has the tenant and the roots of the raw one. -/
def EntryMatches (entry : TenantScopedRoots) (raw : Str × List Str) : Prop :=
  TenantId.parse raw.1 = .ok entry.tenant ∧ RootsMatch entry.roots.roots raw.2

/-- Joining the entries of each tenant keeps what the raw entries cover. -/
theorem TenantScopeRoots.yields_new {entries : List TenantScopedRoots}
    {raw : List (Str × List Str)} (h : List.Forall₂ EntryMatches entries raw) :
    Yields (TenantScopeRoots.new entries) (raw ≠ []) fun r => EntriesMatch r.entries raw := by
  rw [← ne_nil_iff h]
  constructor
  · constructor
    · rintro ⟨r, hr⟩
      exact (TenantScopeRoots.new_spec hr).1
    · exact TenantScopeRoots.new_of_ne_nil
  · intro r hr
    obtain ⟨_, htenants, _⟩ := TenantScopeRoots.new_spec hr
    refine ⟨r.nonempty, r.ascending, fun e _ => ⟨e.roots.nonempty, e.roots.compacted⟩, ?_, ?_⟩
    · intro t
      have hmem : (∃ e ∈ r.entries, e.tenant = t) ↔ ∃ e ∈ entries, e.tenant = t := by
        simp only [← List.mem_map, htenants, mem_collect]
      rw [hmem]
      refine exists_mem_iff h fun e e' he => ?_
      rw [he.1, Except.ok.injEq]
    · intro t target
      rw [TenantScopeRoots.covers_new hr]
      refine exists_mem_iff h fun e e' he => ?_
      rw [he.1, Except.ok.injEq, ← he.2.covers target]
      rfl

/-- The contract of the roots: their texts first, then the list of them. -/
theorem ScopeRoots.yields (raw : List Str) :
    Yields (ScopeRoots.deserialize (texts raw)) (RootsAccepted raw)
      fun r => RootsMatch r.roots raw :=
  (yields_texts ScopePath.parse raw).validated fun _ => ScopeRoots.yields_new

/-- The contract of the tenant sets, in the same two steps. -/
theorem TenantSet.yields (raw : List Str) :
    Yields (TenantSet.deserialize (texts raw)) (TenantsAccepted raw)
      fun set => TenantsMatch set.tenants raw :=
  (yields_texts TenantId.parse raw).validated fun _ => TenantSet.yields_new

/-- An entry is decoded when its two fields are. -/
theorem TenantScopedRoots.yields {v : Value} {raw : Str × List Str} (h : DescribesEntry v raw) :
    Yields (TenantScopedRoots.deserialize v)
      ((∃ t, TenantId.parse raw.1 = .ok t) ∧ RootsAccepted raw.2)
      fun entry => EntryMatches entry raw := by
  have htenant : Yields (deserializeField "tenant" TenantId.deserialize v)
      (∃ t, TenantId.parse raw.1 = .ok t) fun t => TenantId.parse raw.1 = .ok t :=
    Yields.field h.1 (yields_parsed.mapError _)
  refine htenant.bind fun t ht => ?_
  exact (Yields.field h.2 (ScopeRoots.yields raw.2)).map fun r hr => ⟨ht, hr⟩

/-- A sequence of entries is decoded when each entry is. -/
theorem yields_entries {v : Value} {raw : List (Str × List Str)} (h : DescribesEntries v raw) :
    Yields (deserializeVec TenantScopedRoots.deserialize v)
      (∀ e ∈ raw, (∃ t, TenantId.parse e.1 = .ok t) ∧ RootsAccepted e.2)
      fun entries => List.Forall₂ EntryMatches entries raw := by
  rcases h with ⟨items, rfl, hitems⟩
  exact Yields.vec (hitems.imp fun _ _ => TenantScopedRoots.yields)

/-- The contract of the roots of several tenants. -/
theorem TenantScopeRoots.yields {v : Value} {raw : List (Str × List Str)}
    (h : DescribesEntries v raw) :
    Yields (TenantScopeRoots.deserialize v) (EntriesAccepted raw)
      fun r => EntriesMatch r.entries raw :=
  (yields_entries h).validated fun _ => TenantScopeRoots.yields_new

/-- The contract of the grants inside one tenant, variant by variant. -/
theorem GrantScope.yields {v : Value} {raw : RawGrantScope} (h : raw.Describes v) :
    Yields (GrantScope.deserialize v) raw.Accepted fun g => g.Matches raw := by
  cases raw with
  | tenant =>
    have hwire : GrantScopeWire.deserialize v = .ok .tenant :=
      deserializeTagged_eq_ok h rfl rfl
    have hscope : GrantScope.deserialize v = .ok .tenant := validated_eq_ok hwire rfl
    rw [hscope]
    exact Yields.ok trivial
  | paths raw =>
    -- the list is decoded first and validated as a whole afterwards
    have hwire : Yields (GrantScopeWire.deserialize v) (∀ s ∈ raw, ∃ p, ScopePath.parse s = .ok p)
        fun w => ∃ paths, w = .paths paths ∧
          List.Forall₂ (fun p s => ScopePath.parse s = .ok p) paths raw :=
      Yields.variant h.1 rfl
        ((Yields.field h.2 (yields_texts ScopePath.parse raw)).map fun paths hp => ⟨paths, rfl, hp⟩)
    refine hwire.validated fun w hw => ?_
    rcases hw with ⟨paths, rfl, hpaths⟩
    exact (ScopeRoots.yields_new hpaths).map fun r hr => hr
  | other tag =>
    have hwire : Yields (GrantScopeWire.deserialize v) False fun _ => False :=
      Yields.unknown h.1 h.2
    exact hwire.bind_of_false _

/-- The contract of the platform grants, whose tag without fields is `platform`. -/
theorem PlatformGrantScope.yields {v : Value} {raw : RawTenantScope}
    (h : raw.Describes "platform" v) :
    Yields (PlatformGrantScope.deserialize v) raw.Accepted fun g => g.Matches raw := by
  cases raw with
  | bare =>
    have hwire : PlatformGrantScopeWire.deserialize v = .ok .platform :=
      deserializeTagged_eq_ok h rfl rfl
    rw [PlatformGrantScope.deserialize, hwire]
    exact Yields.ok trivial
  | allTenants =>
    have hwire : PlatformGrantScopeWire.deserialize v = .ok .allTenants :=
      deserializeTagged_eq_ok h rfl rfl
    rw [PlatformGrantScope.deserialize, hwire]
    exact Yields.ok trivial
  | tenants raw =>
    -- here the set validates itself while it is decoded
    have hwire : Yields (PlatformGrantScopeWire.deserialize v) (TenantsAccepted raw)
        fun w => w.intoScope.Matches (.tenants raw) :=
      Yields.variant h.1 rfl ((Yields.field h.2 (TenantSet.yields raw)).map fun _ => id)
    exact hwire.map fun _ => id
  | tenantPaths raw =>
    rcases h with ⟨htag, w, hentries, hraw⟩
    have hwire : Yields (PlatformGrantScopeWire.deserialize v) (EntriesAccepted raw)
        fun w => w.intoScope.Matches (.tenantPaths raw) :=
      Yields.variant htag rfl
        ((Yields.field hentries (TenantScopeRoots.yields hraw)).map fun _ => id)
    exact hwire.map fun _ => id
  | other tag =>
    have hwire : Yields (PlatformGrantScopeWire.deserialize v) False fun _ => False :=
      Yields.unknown h.1 h.2
    exact hwire.map fun _ => False.elim

/-- The contract of the data access scopes, whose tag without fields is `none`. -/
theorem TenantDataAccessScope.yields {v : Value} {raw : RawTenantScope}
    (h : raw.Describes "none" v) :
    Yields (TenantDataAccessScope.deserialize v) raw.Accepted fun s => s.Matches raw := by
  cases raw with
  | bare =>
    have hwire : TenantDataAccessScopeWire.deserialize v = .ok .none :=
      deserializeTagged_eq_ok h rfl rfl
    have hscope : TenantDataAccessScope.deserialize v = .ok .none := validated_eq_ok hwire rfl
    rw [hscope]
    exact Yields.ok trivial
  | allTenants =>
    have hwire : TenantDataAccessScopeWire.deserialize v = .ok .allTenants :=
      deserializeTagged_eq_ok h rfl rfl
    have hscope : TenantDataAccessScope.deserialize v = .ok .allTenants := validated_eq_ok hwire rfl
    rw [hscope]
    exact Yields.ok trivial
  | tenants raw =>
    -- here the plain list is decoded, and `TenantSet` normalises it
    have hwire : Yields (TenantDataAccessScopeWire.deserialize v)
        (∀ s ∈ raw, ∃ t, TenantId.parse s = .ok t)
        fun w => ∃ ts, w = .tenants ts ∧
          List.Forall₂ (fun t s => TenantId.parse s = .ok t) ts raw :=
      Yields.variant h.1 rfl
        ((Yields.field h.2 (yields_texts TenantId.parse raw)).map fun ts hts => ⟨ts, rfl, hts⟩)
    refine hwire.validated fun w hw => ?_
    rcases hw with ⟨ts, rfl, hts⟩
    exact (TenantSet.yields_new hts).map fun _ => id
  | tenantPaths raw =>
    rcases h with ⟨htag, w, hentries, hraw⟩
    have hwire : Yields (TenantDataAccessScopeWire.deserialize v)
        (∀ e ∈ raw, (∃ t, TenantId.parse e.1 = .ok t) ∧ RootsAccepted e.2)
        fun w => ∃ entries, w = .tenantPaths entries ∧ List.Forall₂ EntryMatches entries raw :=
      Yields.variant htag rfl
        ((Yields.field hentries (yields_entries hraw)).map fun es hes => ⟨es, rfl, hes⟩)
    refine hwire.validated fun w hw => ?_
    rcases hw with ⟨entries, rfl, hes⟩
    exact (TenantScopeRoots.yields_new hes).map fun _ => id
  | other tag =>
    have hwire : Yields (TenantDataAccessScopeWire.deserialize v) False fun _ => False :=
      Yields.unknown h.1 h.2
    exact hwire.bind_of_false _

/-! ## Main result -/

/-- Every scope survives its wire format. A wire value whose fields are there
and of the right kind is accepted exactly when its tag is known, its texts parse
and none of its lists is empty, and what is decoded is in normal form and covers
what the texts cover. -/
theorem wire_contract :
    ((∀ r : ScopeRoots, ScopeRoots.deserialize r.serialize = .ok r) ∧
      (∀ g : GrantScope, GrantScope.deserialize g.serialize = .ok g) ∧
      (∀ set : TenantSet, TenantSet.deserialize set.serialize = .ok set) ∧
      (∀ r : TenantScopeRoots, TenantScopeRoots.deserialize r.serialize = .ok r) ∧
      (∀ g : PlatformGrantScope, PlatformGrantScope.deserialize g.serialize = .ok g) ∧
      ∀ scopes s, TenantDataAccessScope.merge scopes = .ok s →
        TenantDataAccessScope.deserialize s.serialize = .ok s) ∧
    (∀ raw, Yields (ScopeRoots.deserialize (texts raw)) (RootsAccepted raw)
      fun r => RootsMatch r.roots raw) ∧
    (∀ v raw, RawGrantScope.Describes v raw →
      Yields (GrantScope.deserialize v) raw.Accepted fun g => g.Matches raw) ∧
    (∀ raw, Yields (TenantSet.deserialize (texts raw)) (TenantsAccepted raw)
      fun set => TenantsMatch set.tenants raw) ∧
    (∀ v raw, DescribesEntries v raw →
      Yields (TenantScopeRoots.deserialize v) (EntriesAccepted raw)
        fun r => EntriesMatch r.entries raw) ∧
    (∀ v raw, RawTenantScope.Describes "platform" v raw →
      Yields (PlatformGrantScope.deserialize v) raw.Accepted fun g => g.Matches raw) ∧
    ∀ v raw, RawTenantScope.Describes "none" v raw →
      Yields (TenantDataAccessScope.deserialize v) raw.Accepted fun s => s.Matches raw := by
  refine ⟨⟨?_, ?_, ?_, ?_, ?_, ?_⟩, ?_, ?_, ?_, ?_, ?_, ?_⟩
  · exact ScopeRoots.deserialize_serialize
  · exact GrantScope.deserialize_serialize
  · exact TenantSet.deserialize_serialize
  · exact TenantScopeRoots.deserialize_serialize
  · exact PlatformGrantScope.deserialize_serialize
  · intro scopes s h
    exact TenantDataAccessScope.deserialize_serialize h
  · exact ScopeRoots.yields
  · intro v raw h
    exact GrantScope.yields h
  · exact TenantSet.yields
  · intro v raw h
    exact TenantScopeRoots.yields h
  · intro v raw h
    exact PlatformGrantScope.yields h
  · intro v raw h
    exact TenantDataAccessScope.yields h

namespace Sample

/-- A tenant listed twice, out of order, with a path below another one. -/
def rawEntries : List (Str × List Str) :=
  [(['u'], [['x', '/', '1'], ['x']]), (['t'], [['y']]), (['u'], [['z'], [' ', 'x']])]

def wireEntry (raw : Str × List Str) : Value :=
  .map [("roots", texts raw.2), ("note", .unit), ("tenant", .str raw.1)]

def wireScope : Value :=
  .map [("entries", .seq (rawEntries.map wireEntry)), ("type", .str "tenant_paths".toList)]

end Sample

theorem wire_contract_sample :
    ∃ r, PlatformGrantScope.deserialize Sample.wireScope = .ok (.tenantPaths r) ∧
      EntriesMatch r.entries Sample.rawEntries := by
  have hentries : DescribesEntries (.seq (Sample.rawEntries.map Sample.wireEntry))
      Sample.rawEntries := by
    refine ⟨_, rfl, ?_⟩
    rw [List.forall₂_map_left_iff, List.forall₂_same]
    intro e _
    exact ⟨⟨_, rfl, rfl⟩, ⟨_, rfl, rfl⟩⟩
  have hdescribes : RawTenantScope.Describes "platform" Sample.wireScope
      (.tenantPaths Sample.rawEntries) :=
    ⟨⟨_, rfl, rfl⟩, _, ⟨_, rfl, rfl⟩, hentries⟩
  have hpath : ∀ s, PathValid (trim s) → ∃ p, ScopePath.parse s = .ok p := fun s hs =>
    ⟨⟨trim s, hs⟩, ScopePath.parse_eq_ok.mpr rfl⟩
  have htenant : ∀ s, IdValid (trim s) → ∃ t, TenantId.parse s = .ok t := fun s hs =>
    ⟨⟨trim s, hs⟩, Id.parse_eq_ok.mpr rfl⟩
  have haccepted : EntriesAccepted Sample.rawEntries := by
    refine ⟨fun e he => ⟨htenant _ ?_, fun s hs => hpath _ ?_, ?_⟩, by decide⟩
    · revert e
      decide
    · revert s
      revert e
      decide
    · revert e
      decide
  have hcontract := wire_contract.2.2.2.2.2.1 Sample.wireScope _ hdescribes
  rcases hcontract.1.mpr haccepted with ⟨g, hg⟩
  have hmatch := hcontract.2 g hg
  cases g with
  | tenantPaths r => exact ⟨r, hg, hmatch⟩
  | _ => exact absurd hmatch id

example : (PlatformGrantScope.deserialize Sample.wireScope).toOption.map
      (fun g => g.entryList.map fun e => (e.tenant.val, e.roots.roots.map ScopePath.val)) =
    some [(['t'], [['y']]), (['u'], [['x'], ['z']])] := by
  decide

end RsTenant
