import Mathlib.Data.List.Nodup
import RsTenant.Lib.HashMap

/-! # Least recently used first

A bounded map whose entries may expire, as one list from the least to the most
recently used entry. A hit moves its entry to the recent end, a write puts its
entry there, and what is over the capacity is dropped at the old end.

The second half is the usual representation: a hash map, and next to it a queue
of its keys. `listing` reads the list off such a pair; the operations on the
pair are operations on its listing as long as the queue has every key of the
map once and no other (`Listed`).
-/

namespace Lru

variable {κ β : Type} [DecidableEq κ]

/-! ## The list -/

/-- The value of the first pair with the key. -/
def lookup (xs : List (κ × β)) (k : κ) : Option β := (xs.find? fun x => x.1 = k).map Prod.snd

/-- The list without the key. -/
def remove (xs : List (κ × β)) (k : κ) : List (κ × β) := xs.filter fun x => x.1 ≠ k

/-- The entries that have not expired. -/
def live (expired : β → Bool) (xs : List (κ × β)) : List (κ × β) := xs.filter fun x => !expired x.2

/-- A missing key is not found, an expired entry is removed, and any other is
moved to the recent end. -/
def get (expired : β → Bool) (xs : List (κ × β)) (k : κ) : Option β × List (κ × β) :=
  match lookup xs k with
  | none => (none, xs)
  | some v => if expired v then (none, remove xs k) else (some v, remove xs k ++ [(k, v)])

/-- Drop what has expired, put the entry at the recent end, and drop entries at
the old end while there are too many. -/
def set (expired : β → Bool) (capacity : ℕ) (xs : List (κ × β)) (k : κ) (v : β) :
    List (κ × β) :=
  let ys := remove (live expired xs) k ++ [(k, v)]
  ys.drop (ys.length - capacity)

/-- Keep the entries whose key is not covered. -/
def invalidate (covered : κ → Bool) (xs : List (κ × β)) : List (κ × β) :=
  xs.filter fun x => !covered x.1

/-- Keys are listed once. -/
abbrev Distinct (xs : List (κ × β)) : Prop := (xs.map Prod.fst).Nodup

section List

variable {xs : List (κ × β)} {k : κ} {v : β} {expired : β → Bool} {capacity : ℕ}

theorem mem_remove {x : κ × β} : x ∈ remove xs k ↔ x ∈ xs ∧ x.1 ≠ k := by
  simp [remove]

omit [DecidableEq κ] in
theorem mem_live {x : κ × β} : x ∈ live expired xs ↔ x ∈ xs ∧ expired x.2 = false := by
  simp [live]

theorem mem_of_lookup (h : lookup xs k = some v) : (k, v) ∈ xs := by
  rcases Option.map_eq_some_iff.mp h with ⟨x, hx, rfl⟩
  have hkey : x.1 = k := by simpa using List.find?_some hx
  subst hkey
  exact List.mem_of_find?_eq_some hx

theorem not_mem_of_lookup (h : lookup xs k = none) : ∀ x ∈ xs, x.1 ≠ k := by
  intro x hx
  have hnone := List.find?_eq_none.mp (Option.map_eq_none_iff.mp h) x hx
  simpa using hnone

theorem remove_eq_self (h : ∀ x ∈ xs, x.1 ≠ k) : remove xs k = xs :=
  List.filter_eq_self.mpr fun x hx => by simpa using h x hx

/-- With distinct keys an entry is the one that is found. -/
theorem lookup_of_mem (hxs : Distinct xs) (h : (k, v) ∈ xs) : lookup xs k = some v := by
  cases hlookup : lookup xs k with
  | none => exact absurd rfl (not_mem_of_lookup hlookup _ h)
  | some v' =>
    have heq := List.inj_on_of_nodup_map hxs (mem_of_lookup hlookup) h rfl
    rw [Prod.mk.injEq] at heq
    rw [heq.2]

/-- A lookup loses no entry that has not expired. -/
theorem mem_get (hxs : Distinct xs) {x : κ × β} (hx : x ∈ xs) (hlive : expired x.2 = false) :
    x ∈ (get expired xs k).2 := by
  unfold get
  by_cases hk : x.1 = k
  · subst hk
    rw [lookup_of_mem hxs hx]
    simp [hlive]
  · have hrest : x ∈ remove xs k := mem_remove.mpr ⟨hx, hk⟩
    cases lookup xs k with
    | none => exact hx
    | some v =>
      show x ∈ (if expired v then _ else _ : Option β × List (κ × β)).2
      split
      · exact hrest
      · exact List.mem_append_left _ hrest

/-- A lookup adds no entry. -/
theorem mem_of_mem_get {x : κ × β} (h : x ∈ (get expired xs k).2) : x ∈ xs := by
  unfold get at h
  cases hlookup : lookup xs k with
  | none => simpa [hlookup] using h
  | some v =>
    rw [hlookup] at h
    change x ∈ (if expired v then _ else _ : Option β × List (κ × β)).2 at h
    split at h
    · exact (mem_remove.mp h).1
    · rcases List.mem_append.mp h with hrest | hmoved
      · exact (mem_remove.mp hrest).1
      · rw [List.mem_singleton.mp hmoved]
        exact mem_of_lookup hlookup

/-- A lookup does not make the list longer. -/
theorem length_get_le : (get expired xs k).2.length ≤ xs.length := by
  unfold get
  cases hlookup : lookup xs k with
  | none => exact le_rfl
  | some v =>
    -- the entry found is taken out before it is put back
    have hlt : (remove xs k).length < xs.length :=
      List.length_filter_lt_length_iff_exists.mpr ⟨(k, v), mem_of_lookup hlookup, by simp⟩
    show (if expired v then _ else _ : Option β × List (κ × β)).2.length ≤ _
    split
    · exact hlt.le
    · rw [List.length_append, List.length_singleton]
      omega

/-- A set adds no other entry than its own. -/
theorem mem_of_mem_set {x : κ × β} (h : x ∈ set expired capacity xs k v) : x ∈ xs ∨ x = (k, v) := by
  rcases List.mem_append.mp (List.mem_of_mem_drop h) with hrest | hset
  · exact .inl (mem_live.mp (mem_remove.mp hrest).1).1
  · exact .inr (List.mem_singleton.mp hset)

/-- What has just been set is there, at the recent end. -/
theorem getLast?_set (hcapacity : 0 < capacity) :
    (set expired capacity xs k v).getLast? = some (k, v) := by
  unfold set
  -- what is dropped comes off the front and never reaches the last entry
  have hlen : (remove (live expired xs) k ++ [(k, v)]).length - capacity ≤
      (remove (live expired xs) k).length := by
    rw [List.length_append, List.length_singleton]
    omega
  show List.getLast? (List.drop _ _) = _
  rw [List.drop_append_of_le_length hlen, List.getLast?_append, List.getLast?_singleton]
  rfl

/-- After a set the list fits the capacity. -/
theorem length_set_le : (set expired capacity xs k v).length ≤ capacity := by
  unfold set
  show (List.drop _ _).length ≤ _
  rw [List.length_drop]
  omega

/-- In a list within its capacity, a set drops no live entry of another key
unless that entry is the least recently used one, the live entries fill the
capacity and the key is none of theirs. -/
theorem dropped_by_set (hlen : xs.length ≤ capacity) {x : κ × β} (hx : x ∈ xs)
    (hlive : expired x.2 = false) (hk : x.1 ≠ k) (hlost : x ∉ set expired capacity xs k v) :
    (live expired xs).head? = some x ∧ (live expired xs).length = capacity ∧
      (∀ y ∈ live expired xs, y.1 ≠ k) ∧
      set expired capacity xs k v = (live expired xs).tail ++ [(k, v)] := by
  have hmem : x ∈ remove (live expired xs) k := mem_remove.mpr ⟨mem_live.mpr ⟨hx, hlive⟩, hk⟩
  have hlive_le : (live expired xs).length ≤ xs.length := List.length_filter_le _ _
  have hremove_le : (remove (live expired xs) k).length ≤ (live expired xs).length :=
    List.length_filter_le _ _
  -- the list was full, so nothing had expired and the key was not there
  have hfull : (remove (live expired xs) k).length = capacity := by
    by_contra hne
    apply hlost
    have hzero : (remove (live expired xs) k ++ [(k, v)]).length - capacity = 0 := by
      rw [List.length_append, List.length_singleton]
      omega
    show x ∈ List.drop _ _
    rw [hzero, List.drop_zero]
    exact List.mem_append_left _ hmem
  have hkeys : ∀ y ∈ live expired xs, y.1 ≠ k := by
    have hall := List.length_filter_eq_length_iff.mp
      (show (remove (live expired xs) k).length = (live expired xs).length by omega)
    intro y hy
    simpa using hall y hy
  have hself : remove (live expired xs) k = live expired xs := remove_eq_self hkeys
  rw [hself] at hfull hmem
  have hset : set expired capacity xs k v = (live expired xs).tail ++ [(k, v)] := by
    unfold set
    show List.drop _ _ = _
    rw [hself, List.length_append, List.length_singleton, hfull, Nat.add_sub_cancel_left,
      List.drop_one, List.tail_append_of_ne_nil (List.ne_nil_of_mem hmem)]
  refine ⟨?_, hfull, hkeys, hset⟩
  -- the one entry that is dropped is the first
  rw [hset] at hlost
  cases hl : live expired xs with
  | nil =>
    rw [hl] at hmem
    exact absurd hmem List.not_mem_nil
  | cons y ys =>
    rw [hl] at hmem hlost
    rcases List.mem_cons.mp hmem with rfl | hmem
    · rfl
    · exact absurd (List.mem_append_left _ hmem) hlost

end List

/-! ## Recency -/

section Recency

variable {xs : List (κ × β)} {k : κ} {v : β} {expired : β → Bool} {capacity : ℕ}
  {R R' : κ → κ → Prop}

/-- A relation that moving `k` to the end keeps among the other keys, and has
from all of them to `k`, orders the keys after a write. -/
theorem pairwise_remove_append (hxs : (xs.map Prod.fst).Pairwise R)
    (hkeep : ∀ a b, a ≠ k → R a b → R' a b) (hlast : ∀ a, a ≠ k → R' a k) :
    ((remove xs k ++ [(k, v)]).map Prod.fst).Pairwise R' := by
  rw [List.map_append, List.map_singleton, List.pairwise_append]
  have hne : ∀ a ∈ (remove xs k).map Prod.fst, a ≠ k := by
    intro a ha
    rcases List.mem_map.mp ha with ⟨x, hx, rfl⟩
    exact (mem_remove.mp hx).2
  refine ⟨?_, List.pairwise_singleton _ _, fun a ha b hb => ?_⟩
  · have hsub : ((remove xs k).map Prod.fst).Sublist (xs.map Prod.fst) :=
      List.filter_sublist.map Prod.fst
    exact (hxs.sublist hsub).imp_of_mem fun ha _ hab => hkeep _ _ (hne _ ha) hab
  · rw [List.mem_singleton.mp hb]
    exact hlast a (hne a ha)

/-- An order of the keys in which the looked up one may come last is kept. -/
theorem pairwise_get (hxs : (xs.map Prod.fst).Pairwise R)
    (hkeep : ∀ a b, a ≠ k → R a b → R' a b) (hlast : ∀ a, a ≠ k → R' a k) :
    ((get expired xs k).2.map Prod.fst).Pairwise R' := by
  unfold get
  cases hlookup : lookup xs k with
  | none =>
    refine hxs.imp_of_mem fun ha _ hab => hkeep _ _ ?_ hab
    rcases List.mem_map.mp ha with ⟨x, hx, rfl⟩
    exact not_mem_of_lookup hlookup x hx
  | some v =>
    have hmoved := pairwise_remove_append (v := v) hxs hkeep hlast
    show ((if expired v then _ else _ : Option β × List (κ × β)).2.map Prod.fst).Pairwise R'
    split
    · rw [List.map_append] at hmoved
      exact (List.pairwise_append.mp hmoved).1
    · exact hmoved

/-- The same for a set. -/
theorem pairwise_set (hxs : (xs.map Prod.fst).Pairwise R)
    (hkeep : ∀ a b, a ≠ k → R a b → R' a b) (hlast : ∀ a, a ≠ k → R' a k) :
    ((set expired capacity xs k v).map Prod.fst).Pairwise R' := by
  have hlive : ((live expired xs).map Prod.fst).Pairwise R :=
    hxs.sublist (List.filter_sublist.map Prod.fst)
  have hmoved := pairwise_remove_append (v := v) hlive hkeep hlast
  exact hmoved.sublist ((List.drop_sublist _ _).map Prod.fst)

end Recency

/-! ## Retention -/

/-- The entry is there, and only entries of the keys `ks` were used later. -/
def Recent (ks : List κ) (k : κ) (v : β) (xs : List (κ × β)) : Prop :=
  ∃ older newer, xs = older ++ (k, v) :: newer ∧ ∀ x ∈ newer, x.1 ∈ ks

section Retention

variable {xs : List (κ × β)} {ks : List κ} {k k' : κ} {v v' : β} {expired : β → Bool} {capacity : ℕ}

omit [DecidableEq κ]

theorem Recent.mem (h : Recent ks k v xs) : (k, v) ∈ xs := by
  obtain ⟨older, newer, rfl, -⟩ := h
  exact List.mem_append_right _ List.mem_cons_self

/-- An entry that has just been used. -/
theorem recent_snoc_self (xs : List (κ × β)) (k : κ) (v : β) : Recent ks k v (xs ++ [(k, v)]) :=
  ⟨xs, [], rfl, nofun⟩

theorem Recent.snoc (h : Recent ks k v xs) (hk' : k' ∈ ks) (v' : β) :
    Recent ks k v (xs ++ [(k', v')]) := by
  obtain ⟨older, newer, rfl, hnewer⟩ := h
  refine ⟨older, newer ++ [(k', v')], by simp, fun x hx => ?_⟩
  rcases List.mem_append.mp hx with hx | hx
  · exact hnewer x hx
  · rw [List.mem_singleton.mp hx]
    exact hk'

theorem Recent.filter (h : Recent ks k v xs) {p : κ × β → Bool} (hp : p (k, v) = true) :
    Recent ks k v (xs.filter p) := by
  obtain ⟨older, newer, rfl, hnewer⟩ := h
  refine ⟨older.filter p, newer.filter p, ?_, fun x hx => hnewer x (List.mem_filter.mp hx).1⟩
  rw [List.filter_append, List.filter_cons_of_pos hp]

/-- Dropping entries at the old end down to the capacity does not reach the
entry while the keys used later leave it a place. -/
theorem Recent.drop (h : Recent ks k v xs) (hxs : Distinct xs) (hks : ks.length < capacity) :
    Recent ks k v (xs.drop (xs.length - capacity)) := by
  obtain ⟨older, newer, rfl, hnewer⟩ := h
  have hnodup : (newer.map Prod.fst).Nodup := by
    have hsub : (newer.map Prod.fst).Sublist ((older ++ (k, v) :: newer).map Prod.fst) :=
      ((List.sublist_cons_self _ _).trans (List.sublist_append_right _ _)).map Prod.fst
    exact hxs.sublist hsub
  have hkeys : newer.map Prod.fst ⊆ ks := by
    intro a ha
    rcases List.mem_map.mp ha with ⟨x, hx, rfl⟩
    exact hnewer x hx
  have hnewer_le : newer.length ≤ ks.length := by
    rw [← List.length_map Prod.fst]
    exact (List.subperm_of_subset hnodup hkeys).length_le
  have hreach : (older ++ (k, v) :: newer).length - capacity ≤ older.length := by
    rw [List.length_append, List.length_cons]
    omega
  exact ⟨_, newer, List.drop_append_of_le_length hreach, hnewer⟩

variable [DecidableEq κ]

/-- A lookup of another key, and one of this key that finds it alive. -/
theorem Recent.get (h : Recent ks k v xs) (hxs : Distinct xs)
    (hlive : k' = k → expired v = false)
    (hfound : (get expired xs k').1.isSome → k' = k ∨ k' ∈ ks) :
    Recent ks k v (get expired xs k').2 := by
  unfold Lru.get at hfound ⊢
  by_cases hk : k' = k
  · subst hk
    rw [lookup_of_mem hxs h.mem]
    simp only [hlive rfl]
    exact recent_snoc_self _ _ _
  · have hrest : Recent ks k v (remove xs k') := h.filter (by simpa using Ne.symm hk)
    cases hlookup : lookup xs k' with
    | none => exact h
    | some v' =>
      rw [hlookup] at hfound
      by_cases hexpired : expired v' = true
      · simp only [hexpired]
        exact hrest
      · simp only [hexpired] at hfound ⊢
        exact hrest.snoc ((hfound rfl).resolve_left hk) v'

/-- A set of another key. -/
theorem Recent.set (h : Recent ks k v xs) (hxs : Distinct xs) (hks : ks.length < capacity)
    (hlive : expired v = false) (hk : k' ≠ k) (hk' : k' ∈ ks) (v' : β) :
    Recent ks k v (set expired capacity xs k' v') := by
  have hrest : Recent ks k v (remove (live expired xs) k') :=
    Recent.filter (h.filter (by simpa using hlive)) (by simpa using Ne.symm hk)
  have hdistinct : Distinct (remove (live expired xs) k' ++ [(k', v')]) := by
    have hlisted : Distinct (live expired xs) := hxs.sublist (List.filter_sublist.map Prod.fst)
    exact pairwise_remove_append hlisted (fun _ _ _ hab => hab) fun _ ha => ha
  exact (hrest.snoc hk' v').drop hdistinct hks

/-- What has just been set. -/
theorem recent_set (hcapacity : 0 < capacity) (v : β) :
    Recent ks k v (set expired capacity xs k v) := by
  have hlast : (set expired capacity xs k v).getLast? = some (k, v) := getLast?_set hcapacity
  obtain ⟨older, holder⟩ := List.getLast?_eq_some_iff.mp hlast
  rw [holder]
  exact recent_snoc_self _ _ _

end Retention

end Lru

/-! ## A map and a queue of its keys -/

namespace HashMap

variable {κ β : Type} [DecidableEq κ]

/-- The entries of the map in the order of the queue. -/
def listing (m : HashMap κ β) (order : List κ) : List (κ × β) :=
  order.filterMap fun k => (m.get k).map fun v => (k, v)

/-- The queue has every key of the map once, and no other. -/
structure Listed (m : HashMap κ β) (order : List κ) : Prop where
  nodup : order.Nodup
  mem_iff : ∀ k, k ∈ order ↔ k ∈ m.keys

variable {m : HashMap κ β} {order : List κ} {k : κ} {v : β}

/-- The listing has the pairs of the map whose keys the order names. -/
theorem mem_listing {x : κ × β} : x ∈ m.listing order ↔ x.1 ∈ order ∧ m.get x.1 = some x.2 := by
  simp only [listing, List.mem_filterMap, Option.map_eq_some_iff]
  constructor
  · rintro ⟨k, hk, v, hv, rfl⟩
    exact ⟨hk, hv⟩
  · rintro ⟨hk, hv⟩
    exact ⟨x.1, hk, x.2, hv, rfl⟩

theorem listing_append (m : HashMap κ β) (order order' : List κ) :
    m.listing (order ++ order') = m.listing order ++ m.listing order' :=
  List.filterMap_append

theorem listing_singleton (h : m.get k = some v) : m.listing [k] = [(k, v)] := by
  simp [listing, h]

/-- Where two maps agree on the queue, they have the same listing. -/
theorem listing_congr {m' : HashMap κ β} (h : ∀ k ∈ order, m.get k = m'.get k) :
    m.listing order = m'.listing order := by
  unfold listing
  apply List.filterMap_congr
  intro k hk
  rw [h k hk]

/-- Leaving keys out of the queue leaves their entries out of the listing. -/
theorem listing_filter (m : HashMap κ β) (order : List κ) (p : κ → Bool) :
    m.listing (order.filter p) = (m.listing order).filter fun x => p x.1 := by
  induction order with
  | nil => rfl
  | cons k order ih =>
    unfold listing at ih ⊢
    by_cases hp : p k = true
    · cases hk : m.get k <;> simp [hp, hk, ih]
    · cases hk : m.get k <;> simp [hp, hk, ih]

namespace Listed

/-- Of a map that is listed, it has the keys in the order. -/
theorem keys_listing (h : m.Listed order) : (m.listing order).map Prod.fst = order := by
  have hsome : ∀ k ∈ order, ∃ v, m.get k = some v := by
    intro k hk
    exact Option.isSome_iff_exists.mp ((m.mem_keys k).mp ((h.mem_iff k).mp hk))
  clear h
  induction order with
  | nil => rfl
  | cons k order ih =>
    rw [List.forall_mem_cons] at hsome
    rcases hsome.1 with ⟨v, hv⟩
    have hrest := ih hsome.2
    unfold listing at hrest ⊢
    simp [hv, hrest]

theorem distinct (h : m.Listed order) : Lru.Distinct (m.listing order) := by
  unfold Lru.Distinct
  rw [h.keys_listing]
  exact h.nodup

theorem len_eq (h : m.Listed order) : m.len = order.length := by
  have hkeys : m.keys = order.toFinset := by
    ext k
    rw [List.mem_toFinset, h.mem_iff]
  unfold len
  rw [hkeys, List.toFinset_card_of_nodup h.nodup]

theorem length_listing (h : m.Listed order) : (m.listing order).length = m.len := by
  rw [h.len_eq, ← congrArg List.length h.keys_listing, List.length_map]

/-- Looking a key up in the listing is looking it up in the map. -/
theorem lookup_listing (h : m.Listed order) (k : κ) : Lru.lookup (m.listing order) k = m.get k := by
  cases hk : m.get k with
  | none =>
    by_contra hsome
    rcases Option.ne_none_iff_exists'.mp hsome with ⟨v, hv⟩
    have hmem := (mem_listing.mp (Lru.mem_of_lookup hv)).2
    rw [hk] at hmem
    cases hmem
  | some v =>
    have hkey : k ∈ m.keys := by
      rw [m.mem_keys, hk]
      rfl
    exact Lru.lookup_of_mem h.distinct (mem_listing.mpr ⟨(h.mem_iff k).mpr hkey, hk⟩)

theorem empty : (HashMap.empty : HashMap κ β).Listed [] := ⟨List.nodup_nil, by simp [HashMap.empty]⟩

/-- Taking the first key off the queue, and out of the map. -/
theorem uncons (h : m.Listed (k :: order)) :
    (m.remove k).Listed order ∧ (m.remove k).len + 1 = m.len ∧
      ∃ v, m.listing (k :: order) = (k, v) :: (m.remove k).listing order := by
  have hnot : k ∉ order := (List.nodup_cons.mp h.nodup).1
  have hk : k ∈ m.keys := (h.mem_iff k).mp List.mem_cons_self
  -- the first key is in the map and occurs in the queue once
  rcases Option.isSome_iff_exists.mp ((m.mem_keys k).mp hk) with ⟨v, hv⟩
  refine ⟨⟨(List.nodup_cons.mp h.nodup).2, fun k' => ?_⟩, ?_, v, ?_⟩
  · have hiff := h.mem_iff k'
    rw [List.mem_cons] at hiff
    show k' ∈ order ↔ k' ∈ m.keys.erase k
    rw [Finset.mem_erase, ← hiff]
    constructor
    · intro hmem
      exact ⟨fun heq => hnot (heq ▸ hmem), .inr hmem⟩
    · rintro ⟨hne, hmem⟩
      exact hmem.resolve_left hne
  · exact Finset.card_erase_add_one hk
  · have hsame : (m.remove k).listing order = m.listing order := by
      apply listing_congr
      intro k' hk'
      exact get_remove_ne m fun heq => hnot (heq ▸ hk')
    rw [hsame]
    simp [listing, hv]

/-- Removing a key from both. -/
theorem remove (h : m.Listed order) (k : κ) :
    (m.remove k).Listed (order.filter fun k' => k' ≠ k) ∧
      (m.remove k).listing (order.filter fun k' => k' ≠ k) = Lru.remove (m.listing order) k := by
  refine ⟨⟨h.nodup.filter _, fun k' => ?_⟩, ?_⟩
  · simp [HashMap.remove, h.mem_iff, and_comm]
  · have hsame : (m.remove k).listing (order.filter fun k' => k' ≠ k) =
        m.listing (order.filter fun k' => k' ≠ k) := by
      apply listing_congr
      intro k' hk'
      exact get_remove_ne m (by simpa using (List.mem_filter.mp hk').2)
    rw [hsame, listing_filter]
    rfl

/-- A key moved to the end is there once. -/
theorem nodup_moved (h : order.Nodup) (k : κ) :
    (order.filter (fun k' => k' ≠ k) ++ [k]).Nodup := by
  rw [List.nodup_append]
  refine ⟨h.filter _, List.nodup_singleton k, ?_⟩
  rintro a ha b hb rfl
  rw [List.mem_singleton.mp hb] at ha
  simp at ha

theorem mem_moved (h : m.Listed order) (k k' : κ) :
    k' ∈ order.filter (fun k' => k' ≠ k) ++ [k] ↔ k' = k ∨ k' ∈ m.keys := by
  rw [List.mem_append, List.mem_filter, List.mem_singleton, h.mem_iff]
  by_cases hkk : k' = k
  · simp [hkk]
  · simp [hkk]

/-- Moving a key of the map to the end of the queue. -/
theorem move (h : m.Listed order) (hk : m.get k = some v) :
    m.Listed (order.filter (fun k' => k' ≠ k) ++ [k]) ∧
      m.listing (order.filter (fun k' => k' ≠ k) ++ [k]) =
        Lru.remove (m.listing order) k ++ [(k, v)] := by
  refine ⟨⟨nodup_moved h.nodup k, fun k' => ?_⟩, ?_⟩
  · have hmem : k ∈ m.keys := by simp [m.mem_keys, hk]
    rw [h.mem_moved]
    constructor
    · rintro (rfl | hk')
      · exact hmem
      · exact hk'
    · exact .inr
  · rw [listing_append, listing_filter, listing_singleton hk]
    rfl

/-- Setting a key, and moving it to the end of the queue. -/
theorem insert (h : m.Listed order) (k : κ) (v : β) :
    (m.insert k v).Listed (order.filter (fun k' => k' ≠ k) ++ [k]) ∧
      (m.insert k v).listing (order.filter (fun k' => k' ≠ k) ++ [k]) =
        Lru.remove (m.listing order) k ++ [(k, v)] := by
  refine ⟨⟨nodup_moved h.nodup k, fun k' => ?_⟩, ?_⟩
  · rw [h.mem_moved]
    exact Finset.mem_insert.symm
  · have hsame : (m.insert k v).listing (order.filter fun k' => k' ≠ k) =
        m.listing (order.filter fun k' => k' ≠ k) := by
      apply listing_congr
      intro k' hk'
      exact get_insert_ne m v (by simpa using (List.mem_filter.mp hk').2)
    rw [listing_append, hsame, listing_filter, listing_singleton (get_insert_self m k v)]
    rfl

/-- Keeping some entries of the map, and the keys that it still has. -/
theorem retain (h : m.Listed order) (p : κ → β → Bool) :
    (m.retain p).Listed (order.filter fun k => (m.retain p).containsKey k) ∧
      (m.retain p).listing (order.filter fun k => (m.retain p).containsKey k) =
        (m.listing order).filter fun x => p x.1 x.2 := by
  have hcontains : ∀ k, (m.retain p).containsKey k = true ↔ k ∈ (m.retain p).keys :=
    fun k => ((m.retain p).mem_keys k).symm
  refine ⟨⟨h.nodup.filter _, fun k => ?_⟩, ?_⟩
  · rw [List.mem_filter, hcontains, h.mem_iff]
    constructor
    · exact fun hk => hk.2
    · intro hk
      exact ⟨(Finset.mem_filter.mp hk).1, hk⟩
  -- key by key: a key is kept in the queue exactly when its entry is kept
  · clear h hcontains
    induction order with
    | nil => rfl
    | cons k order ih =>
      unfold listing at ih ⊢
      cases hk : m.get k with
      | none => simpa [containsKey, hk] using ih
      | some v =>
        cases hp : p k v with
        | true => simpa [containsKey, hk, hp] using ih
        | false => simpa [containsKey, hk, hp] using ih

end Listed

end HashMap
