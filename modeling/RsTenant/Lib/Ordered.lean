import Mathlib.Data.List.Sort
import Mathlib.Data.List.Dedup
import Mathlib.Data.List.Induction

/-! # Ordered collections as lists

`collect` is what iterating an ordered set collected from a list yields, and
`group` what iterating an ordered map yields whose entries were extended one
after the other. `thin` keeps the elements of an ascending list that no kept
element covers: over a covering order that respects the linear order these are
exactly the minimal elements, so the result depends on what the list covers
and on nothing else.
-/

namespace Ordered

variable {α : Type*} [LinearOrder α]

/-- Ascending without repetition. -/
abbrev Ascending (xs : List α) : Prop := xs.Pairwise (· < ·)

/-- The elements of `xs` in ascending order, each once. -/
def collect (xs : List α) : List α := xs.dedup.insertionSort (· ≤ ·)

/-- Sorting and deduplicating keeps the elements. -/
@[simp] theorem mem_collect {xs : List α} {a : α} : a ∈ collect xs ↔ a ∈ xs := by
  simp [collect, List.mem_insertionSort]

/-- A collected list is in order and without duplicates. -/
theorem collect_ascending (xs : List α) : Ascending (collect xs) := by
  have hle : (collect xs).Pairwise (· ≤ ·) := List.pairwise_insertionSort (· ≤ ·) xs.dedup
  have hne : (collect xs).Nodup :=
    (List.perm_insertionSort (· ≤ ·) xs.dedup).nodup_iff.mpr xs.nodup_dedup
  exact (hle.and hne).imp fun h => lt_of_le_of_ne h.1 h.2

/-- An ascending list is determined by its elements. -/
theorem Ascending.eq_of_mem_iff {xs ys : List α} (hx : Ascending xs) (hy : Ascending ys)
    (h : ∀ a, a ∈ xs ↔ a ∈ ys) : xs = ys :=
  List.Pairwise.eq_of_mem_iff hx hy h

/-- Collecting is idempotent. -/
theorem collect_eq_self {xs : List α} (h : Ascending xs) : collect xs = xs :=
  (collect_ascending xs).eq_of_mem_iff h fun _ => mem_collect

theorem collect_congr {xs ys : List α} (h : ∀ a, a ∈ xs ↔ a ∈ ys) : collect xs = collect ys :=
  (collect_ascending xs).eq_of_mem_iff (collect_ascending ys) fun a => by simp [h a]

theorem collect_eq_nil {xs : List α} : collect xs = [] ↔ xs = [] := by
  simp [List.eq_nil_iff_forall_not_mem]

/-! ## Thinning out covered elements -/

/-- Keep what no element kept so far covers. -/
def thin (cov : α → α → Bool) (xs : List α) : List α :=
  xs.foldl (fun kept x => if kept.any fun r => cov r x then kept else kept ++ [x]) []

/-- A covering order: reflexive, transitive, and no element covers a smaller
one. -/
structure Covering (cov : α → α → Bool) : Prop where
  refl : ∀ a, cov a a
  trans : ∀ {a b c}, cov a b → cov b c → cov a c
  le : ∀ {a b}, cov a b → a ≤ b

/-- No element covers another one, in ascending order. -/
def Antichain (cov : α → α → Bool) (xs : List α) : Prop :=
  xs.Pairwise fun a b => a < b ∧ ¬ cov a b

namespace Covering

variable {cov : α → α → Bool} (hc : Covering cov)
include hc

/-- Two that cover each other are the same. -/
theorem antisymm {a b : α} (h : cov a b) (h' : cov b a) : a = b :=
  le_antisymm (hc.le h) (hc.le h')

/-- In an antichain nobody covers another one. -/
theorem eq_of_antichain {xs : List α} (hx : Antichain cov xs) {a b : α} (ha : a ∈ xs)
    (hb : b ∈ xs) (h : cov a b) : a = b := by
  induction xs with
  | nil => simp at ha
  | cons x xs ih =>
    have hhead := (List.pairwise_cons.mp hx).1
    rcases List.mem_cons.mp ha with rfl | ha'
    · rcases List.mem_cons.mp hb with rfl | hb'
      · rfl
      · exact absurd h (hhead b hb').2
    · rcases List.mem_cons.mp hb with rfl | hb'
      · exact absurd (hc.le h) (not_le_of_gt (hhead a ha').1)
      · exact ih (List.pairwise_cons.mp hx).2 ha' hb'

/-- What the scan keeps after any part of the list: some of the elements seen,
covering all of them, none covering another. -/
theorem thin_spec {xs : List α} (hx : Ascending xs) :
    (∀ a ∈ thin cov xs, a ∈ xs) ∧ (∀ a ∈ xs, ∃ r ∈ thin cov xs, cov r a) ∧
      Antichain cov (thin cov xs) := by
  induction xs using List.reverseRecOn with
  | nil => simp [thin, Antichain]
  | append_singleton xs x ih =>
    have hlt : ∀ a ∈ xs, a < x := fun a ha =>
      (List.pairwise_append.mp hx).2.2 a ha x (List.mem_singleton_self x)
    rcases ih (List.pairwise_append.mp hx).1 with ⟨hsub, hcov, hanti⟩
    have hstep : thin cov (xs ++ [x]) =
        if (thin cov xs).any fun r => cov r x then thin cov xs else thin cov xs ++ [x] := by
      simp [thin, List.foldl_append]
    rw [hstep]
    by_cases hany : ((thin cov xs).any fun r => cov r x) = true
    · -- `x` is covered, and nothing is added
      rw [if_pos hany]
      refine ⟨fun a ha => List.mem_append_left _ (hsub a ha), fun a ha => ?_, hanti⟩
      rcases List.mem_append.mp ha with ha | ha
      · exact hcov a ha
      · rw [List.mem_singleton.mp ha]
        exact List.any_eq_true.mp hany
    · -- `x` is kept: it is above everything so far, so it covers none of it
      rw [if_neg hany]
      have hnot : ∀ r ∈ thin cov xs, ¬ cov r x := by
        intro r hr hrx
        exact hany (List.any_eq_true.mpr ⟨r, hr, hrx⟩)
      refine ⟨fun a ha => ?_, fun a ha => ?_, ?_⟩
      · rcases List.mem_append.mp ha with ha | ha
        · exact List.mem_append_left _ (hsub a ha)
        · exact List.mem_append_right _ ha
      · rcases List.mem_append.mp ha with ha | ha
        · rcases hcov a ha with ⟨r, hr, hra⟩
          exact ⟨r, List.mem_append_left _ hr, hra⟩
        · exact ⟨a, List.mem_append_right _ ha, hc.refl a⟩
      · refine List.pairwise_append.mpr ⟨hanti, List.pairwise_singleton _ _, fun r hr b hb => ?_⟩
        rw [List.mem_singleton.mp hb]
        exact ⟨hlt r (hsub r hr), hnot r hr⟩

end Covering

/-- The roots of a list: thin out its elements in ascending order. -/
def roots (cov : α → α → Bool) (xs : List α) : List α := thin cov (collect xs)

namespace Covering

variable {cov : α → α → Bool} (hc : Covering cov)
include hc

/-- The roots do not cover each other. -/
theorem roots_antichain (xs : List α) : Antichain cov (roots cov xs) :=
  (hc.thin_spec (collect_ascending xs)).2.2

/-- The roots are in order. -/
theorem roots_ascending (xs : List α) : Ascending (roots cov xs) :=
  (hc.roots_antichain xs).imp fun h => h.1

theorem roots_subset {xs : List α} {a : α} (ha : a ∈ roots cov xs) : a ∈ xs :=
  mem_collect.mp ((hc.thin_spec (collect_ascending xs)).1 a ha)

/-- The roots are the minimal elements. -/
theorem mem_roots {xs : List α} {a : α} :
    a ∈ roots cov xs ↔ a ∈ xs ∧ ∀ b ∈ xs, cov b a → b = a := by
  have hcov : ∀ b ∈ xs, ∃ r ∈ roots cov xs, cov r b := fun b hb =>
    (hc.thin_spec (collect_ascending xs)).2.1 b (mem_collect.mpr hb)
  constructor
  · intro ha
    refine ⟨hc.roots_subset ha, fun b hb hba => ?_⟩
    rcases hcov b hb with ⟨r, hr, hrb⟩
    have hra : r = a := hc.eq_of_antichain (hc.roots_antichain xs) hr ha (hc.trans hrb hba)
    exact hc.antisymm hba (hra ▸ hrb)
  · rintro ⟨ha, hmin⟩
    rcases hcov a ha with ⟨r, hr, hra⟩
    exact hmin r (hc.roots_subset hr) hra ▸ hr

/-- The roots cover what the list covers. -/
theorem roots_cover {xs : List α} {t : α} :
    (∃ r ∈ roots cov xs, cov r t) ↔ ∃ r ∈ xs, cov r t := by
  constructor
  · rintro ⟨r, hr, hrt⟩
    exact ⟨r, hc.roots_subset hr, hrt⟩
  · rintro ⟨b, hb, hbt⟩
    rcases (hc.thin_spec (collect_ascending xs)).2.1 b (mem_collect.mpr hb) with ⟨r, hr, hrb⟩
    exact ⟨r, hr, hc.trans hrb hbt⟩

/-- Two lists have the same roots exactly when they cover the same elements. -/
theorem roots_eq_iff {xs ys : List α} :
    roots cov xs = roots cov ys ↔ ∀ t, (∃ r ∈ xs, cov r t) ↔ ∃ r ∈ ys, cov r t := by
  constructor
  · intro h t
    rw [← hc.roots_cover, h, hc.roots_cover]
  · -- each root of one list is covered by a root of the other, and back
    have half : ∀ {xs ys : List α}, (∀ t, (∃ r ∈ xs, cov r t) ↔ ∃ r ∈ ys, cov r t) →
        ∀ a ∈ roots cov xs, a ∈ roots cov ys := by
      intro xs ys h a ha
      rcases hc.roots_cover.mpr ((h a).mp ⟨a, hc.roots_subset ha, hc.refl a⟩) with ⟨b, hb, hba⟩
      obtain ⟨c, hcx, hcb⟩ :=
        hc.roots_cover.mpr ((h b).mpr ⟨b, hc.roots_subset hb, hc.refl b⟩)
      have hca : c = a := hc.eq_of_antichain (hc.roots_antichain xs) hcx ha (hc.trans hcb hba)
      exact hc.antisymm hba (hca ▸ hcb) ▸ hb
    intro h
    exact (hc.roots_ascending xs).eq_of_mem_iff (hc.roots_ascending ys) fun a =>
      ⟨half h a, half (fun t => (h t).symm) a⟩

/-- The roots depend on the elements of a list only. -/
theorem roots_congr {xs ys : List α} (h : ∀ a, a ∈ xs ↔ a ∈ ys) : roots cov xs = roots cov ys :=
  hc.roots_eq_iff.mpr fun t => by simp [h]

/-- An antichain in order consists of its roots. -/
theorem roots_eq_self {xs : List α} (hx : Antichain cov xs) : roots cov xs = xs := by
  refine (hc.roots_ascending xs).eq_of_mem_iff (hx.imp fun h => h.1) fun a => ?_
  rw [hc.mem_roots]
  exact ⟨And.left, fun ha => ⟨ha, fun b hb hba => hc.eq_of_antichain hx hb ha hba⟩⟩

theorem roots_eq_nil {xs : List α} : roots cov xs = [] ↔ xs = [] := by
  constructor
  · intro h
    refine List.eq_nil_iff_forall_not_mem.mpr fun a ha => ?_
    rcases hc.roots_cover.mpr ⟨a, ha, hc.refl a⟩ with ⟨r, hr, -⟩
    simp [h] at hr
  · rintro rfl
    rfl

end Covering

/-! ## Grouping by key -/

section Group

variable {κ β : Type*} [LinearOrder κ]

/-- Append `vs` to the values of key `k`, adding the key in its place when it
is new. -/
def extendEntry (k : κ) (vs : List β) : List (κ × List β) → List (κ × List β)
  | [] => [(k, vs)]
  | (k', ws) :: m =>
    if k < k' then (k, vs) :: (k', ws) :: m
    else if k = k' then (k', ws ++ vs) :: m
    else (k', ws) :: extendEntry k vs m

/-- All values listed for each key, keys ascending. -/
def group (xs : List (κ × List β)) : List (κ × List β) :=
  xs.foldl (fun m x => extendEntry x.1 x.2 m) []

/-- Extending an entry adds its key, if there was none. -/
theorem keys_extendEntry {k : κ} {vs : List β} {m : List (κ × List β)} {k' : κ} :
    k' ∈ (extendEntry k vs m).map Prod.fst ↔ k' = k ∨ k' ∈ m.map Prod.fst := by
  induction m with
  | nil => simp [extendEntry]
  | cons e m ih =>
    rcases e with ⟨k₀, ws⟩
    unfold extendEntry
    split
    · simp
    · split
      · rename_i h
        simp only [List.map_cons, List.mem_cons, h]
        tauto
      · simp only [List.map_cons, List.mem_cons, ih]
        tauto

/-- The keys stay in order. -/
theorem extendEntry_ascending {k : κ} {vs : List β} {m : List (κ × List β)}
    (hm : Ascending (m.map Prod.fst)) : Ascending ((extendEntry k vs m).map Prod.fst) := by
  induction m with
  | nil => simp [extendEntry]
  | cons e m ih =>
    rcases e with ⟨k₀, ws⟩
    have htail := List.pairwise_cons.mp hm
    unfold extendEntry
    split
    · rename_i hlt
      refine List.pairwise_cons.mpr ⟨fun k' hk' => ?_, hm⟩
      rcases List.mem_cons.mp hk' with rfl | hk'
      · exact hlt
      · exact lt_trans hlt (htail.1 k' hk')
    · split
      · exact hm
      · rename_i hlt hne
        refine List.pairwise_cons.mpr ⟨fun k' hk' => ?_, ih htail.2⟩
        rcases keys_extendEntry.mp hk' with rfl | hk'
        · exact lt_of_le_of_ne (not_lt.mp hlt) (Ne.symm hne)
        · exact htail.1 k' hk'

/-- The values under a key. -/
def valuesAt (m : List (κ × List β)) (k : κ) : List β :=
  (m.filter fun e => e.1 = k).flatMap Prod.snd

theorem valuesAt_of_not_mem {m : List (κ × List β)} {k : κ} (h : k ∉ m.map Prod.fst) :
    valuesAt m k = [] := by
  have hnil : (m.filter fun e => e.1 = k) = [] := by
    refine List.filter_eq_nil_iff.mpr fun e he hk => h ?_
    exact List.mem_map.mpr ⟨e, he, by simpa using hk⟩
  simp [valuesAt, hnil]

theorem valuesAt_cons (e : κ × List β) (m : List (κ × List β)) (k : κ) :
    valuesAt (e :: m) k = (if e.1 = k then e.2 else []) ++ valuesAt m k := by
  by_cases h : e.1 = k <;> simp [valuesAt, h]

/-- The values are added under that key, behind those it had. -/
theorem valuesAt_extendEntry {k : κ} {vs : List β} {m : List (κ × List β)}
    (hm : Ascending (m.map Prod.fst)) (k' : κ) :
    valuesAt (extendEntry k vs m) k' = valuesAt m k' ++ (if k = k' then vs else []) := by
  induction m with
  | nil =>
    rw [extendEntry, valuesAt_cons]
    simp [valuesAt]
  | cons e m ih =>
    rcases e with ⟨k₀, ws⟩
    have htail := List.pairwise_cons.mp hm
    unfold extendEntry
    split
    · -- `k` is below every key of the map
      rename_i hlt
      rw [valuesAt_cons]
      by_cases hk : k = k'
      · subst hk
        have hnot : k ∉ ((k₀, ws) :: m).map Prod.fst := by
          intro hmem
          rcases List.mem_cons.mp hmem with h | h
          · exact absurd h hlt.ne
          · exact absurd (lt_trans hlt (htail.1 k h)) (lt_irrefl k)
        simp [valuesAt_of_not_mem hnot]
      · simp [hk]
    · split
      -- the key is there already, and only here
      · rename_i heq
        subst heq
        rw [valuesAt_cons, valuesAt_cons]
        by_cases hk : k = k'
        · subst hk
          simp [valuesAt_of_not_mem fun h => absurd (htail.1 k h) (lt_irrefl k)]
        · simp [hk]
      · rw [valuesAt_cons, valuesAt_cons, ih htail.2, List.append_assoc]

theorem group_append (xs : List (κ × List β)) (x : κ × List β) :
    group (xs ++ [x]) = extendEntry x.1 x.2 (group xs) := by
  simp [group, List.foldl_append]

/-- The keys of the groups are in order. -/
theorem group_ascending (xs : List (κ × List β)) : Ascending ((group xs).map Prod.fst) := by
  induction xs using List.reverseRecOn with
  | nil => simp [group]
  | append_singleton xs x ih =>
    rw [group_append]
    exact extendEntry_ascending ih

/-- No key is lost and none is made up. -/
theorem keys_group {xs : List (κ × List β)} {k : κ} :
    k ∈ (group xs).map Prod.fst ↔ k ∈ xs.map Prod.fst := by
  induction xs using List.reverseRecOn with
  | nil => simp [group]
  | append_singleton xs x ih =>
    rw [group_append, keys_extendEntry, ih]
    simp [or_comm, eq_comm]

/-- Each key keeps its values, in their order. -/
theorem valuesAt_group (xs : List (κ × List β)) (k : κ) :
    valuesAt (group xs) k = valuesAt xs k := by
  induction xs using List.reverseRecOn with
  | nil => rfl
  | append_singleton xs x ih =>
    rw [group_append, valuesAt_extendEntry (group_ascending xs), ih]
    by_cases h : x.1 = k <;> simp [valuesAt, h]

/-- Each entry of an ascending map holds the values of its key. -/
theorem valuesAt_of_mem {m : List (κ × List β)} (hm : Ascending (m.map Prod.fst))
    {e : κ × List β} (he : e ∈ m) : valuesAt m e.1 = e.2 := by
  induction m with
  | nil => simp at he
  | cons e' m ih =>
    have htail := List.pairwise_cons.mp hm
    rw [valuesAt_cons]
    rcases List.mem_cons.mp he with rfl | he
    · simp [valuesAt_of_not_mem fun h => absurd (htail.1 e.1 h) (lt_irrefl e.1)]
    · have hlt := htail.1 e.1 (List.mem_map.mpr ⟨e, he, rfl⟩)
      simp [hlt.ne, ih htail.2 he]

/-- Grouping lists every key that occurs once, with all its values. -/
theorem group_eq (xs : List (κ × List β)) :
    group xs = (collect (xs.map Prod.fst)).map fun k => (k, valuesAt xs k) := by
  -- both ascend and have the same keys
  have hkeys : (group xs).map Prod.fst = collect (xs.map Prod.fst) :=
    (group_ascending xs).eq_of_mem_iff (collect_ascending _) fun k => by
      rw [keys_group, mem_collect]
  rw [← hkeys, List.map_map]
  refine (List.map_id' _).symm.trans (List.map_congr_left fun e he => ?_)
  have := valuesAt_of_mem (group_ascending xs) he
  rw [valuesAt_group] at this
  simp [this]

end Group

end Ordered
