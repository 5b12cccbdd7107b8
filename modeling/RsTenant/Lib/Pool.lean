import Mathlib.Logic.Function.Basic
import RsTenant.Lib.Prog

/-! # Interleaved programs

Any number of programs take turns on one shared state. A turn performs one
operation of one thread, atomically; nothing else orders the threads, so the
runs of a pool are all interleavings of their operations.

The pool keeps the history of what was performed. `Pool.run_history` is the
one fact later proofs need about runs: the history records a run of the shared
state, and each thread's share of it is a path of that thread.
-/

namespace Interact

/-- How an operation changes the shared state, and its answer. -/
abbrev Handler (S : Sig) (σ : Type) : Type := (op : S.Op) → σ → S.Resp op × σ

/-- An event as the pool saw it: which thread performed it, and on which
shared state. -/
structure Occ (S : Sig) (σ : Type) where
  thread : ℕ
  pre : σ
  event : Event S

/-- The shared state, the rest of every thread, and what was performed so far
(oldest first). -/
structure Pool (S : Sig) (σ α : Type) where
  shared : σ
  threads : ℕ → Prog S α
  hist : List (Occ S σ)

variable {S : Sig} {σ α : Type}

/-- The history `l` takes the shared state from `s` to `s'`. -/
def Records (h : Handler S σ) : σ → List (Occ S σ) → σ → Prop
  | s, [], s' => s = s'
  | s, o :: l, s' =>
    o.pre = s ∧ o.event.resp = (h o.event.op s).1 ∧ Records h (h o.event.op s).2 l s'

/-- Thread `i`'s share of a history. -/
def trail (i : ℕ) (l : List (Occ S σ)) : List (Event S) :=
  (l.filter fun o => o.thread = i).map Occ.event

namespace Pool

/-- One turn of thread `i`; a thread that has returned has no more turns. -/
def step (h : Handler S σ) (c : Pool S σ α) (i : ℕ) : Pool S σ α :=
  match c.threads i with
  | .ret _ => c
  | .call op k =>
    { shared := (h op c.shared).2
      threads := Function.update c.threads i (k (h op c.shared).1)
      hist := c.hist ++ [⟨i, c.shared, ⟨op, (h op c.shared).1⟩⟩] }

/-- Threads take turns in the order of the schedule. -/
def run (h : Handler S σ) (c : Pool S σ α) (sched : List ℕ) : Pool S σ α :=
  sched.foldl (step h) c

@[simp] theorem run_nil (h : Handler S σ) (c : Pool S σ α) : c.run h [] = c := rfl

@[simp] theorem run_cons (h : Handler S σ) (c : Pool S σ α) (i : ℕ) (sched : List ℕ) :
    c.run h (i :: sched) = (c.step h i).run h sched := rfl

theorem run_append (h : Handler S σ) (c : Pool S σ α) (sched sched' : List ℕ) :
    c.run h (sched ++ sched') = (c.run h sched).run h sched' :=
  List.foldl_append

theorem step_of_call (h : Handler S σ) {c : Pool S σ α} {i : ℕ} {op : S.Op}
    {k : S.Resp op → Prog S α} (hi : c.threads i = .call op k) :
    c.step h i =
      { shared := (h op c.shared).2
        threads := Function.update c.threads i (k (h op c.shared).1)
        hist := c.hist ++ [⟨i, c.shared, ⟨op, (h op c.shared).1⟩⟩] } := by
  unfold step
  rw [hi]

/-- What a turn can do: nothing for a finished thread, else exactly one
operation. -/
theorem step_cases (h : Handler S σ) (c : Pool S σ α) (i : ℕ) :
    (∃ a, c.threads i = .ret a ∧ c.step h i = c) ∨
    (∃ op k, c.threads i = .call op k ∧
      c.step h i =
        { shared := (h op c.shared).2
          threads := Function.update c.threads i (k (h op c.shared).1)
          hist := c.hist ++ [⟨i, c.shared, ⟨op, (h op c.shared).1⟩⟩] }) := by
  cases hi : c.threads i with
  | ret a =>
    refine .inl ⟨a, rfl, ?_⟩
    unfold step
    rw [hi]
  | call op k => exact .inr ⟨op, k, rfl, step_of_call h hi⟩

end Pool

/-! ## Histories -/

/-- Two places in one list are the same, or one comes before the other. -/
theorem split_cases {γ : Type} {l₁ l₂ m₁ m₂ : List γ} {x y : γ}
    (h : l₁ ++ x :: l₂ = m₁ ++ y :: m₂) :
    (l₁ = m₁ ∧ x = y ∧ l₂ = m₂) ∨ (∃ n, m₁ = l₁ ++ x :: n ∧ l₂ = n ++ y :: m₂) ∨
      ∃ n, l₁ = m₁ ++ y :: n ∧ m₂ = n ++ x :: l₂ := by
  rcases List.append_eq_append_iff.mp h with ⟨n, hm, hn⟩ | ⟨n, hl, hn⟩
  · cases n with
    | nil =>
      rw [List.append_nil] at hm
      rw [List.nil_append, List.cons.injEq] at hn
      exact .inl ⟨hm.symm, hn.1, hn.2⟩
    | cons z n =>
      rw [List.cons_append, List.cons.injEq] at hn
      exact .inr (.inl ⟨n, hn.1 ▸ hm, hn.2⟩)
  · cases n with
    | nil =>
      rw [List.append_nil] at hl
      rw [List.nil_append, List.cons.injEq] at hn
      exact .inl ⟨hl, hn.1.symm, hn.2.symm⟩
    | cons z n =>
      rw [List.cons_append, List.cons.injEq] at hn
      exact .inr (.inr ⟨n, hn.1 ▸ hl, hn.2⟩)

@[simp] theorem trail_nil (i : ℕ) : trail i ([] : List (Occ S σ)) = [] := rfl

theorem trail_append (i : ℕ) (l l' : List (Occ S σ)) :
    trail i (l ++ l') = trail i l ++ trail i l' := by
  simp [trail]

theorem trail_cons_self (o : Occ S σ) (l : List (Occ S σ)) :
    trail o.thread (o :: l) = o.event :: trail o.thread l := by
  simp [trail]

theorem trail_cons_other {i : ℕ} {o : Occ S σ} (hi : o.thread ≠ i) (l : List (Occ S σ)) :
    trail i (o :: l) = trail i l := by
  simp [trail, hi]

theorem mem_trail {i : ℕ} {l : List (Occ S σ)} {ev : Event S} :
    ev ∈ trail i l ↔ ∃ o ∈ l, o.thread = i ∧ o.event = ev := by
  simp [trail, and_assoc]

/-- An event on a thread's trail has its place in the history. -/
theorem trail_split {i : ℕ} {l : List (Occ S σ)} {t₁ t₂ : List (Event S)} {ev : Event S}
    (h : trail i l = t₁ ++ ev :: t₂) :
    ∃ l₁ o l₂, l = l₁ ++ o :: l₂ ∧ o.thread = i ∧ o.event = ev ∧
      trail i l₁ = t₁ ∧ trail i l₂ = t₂ := by
  induction l generalizing t₁ with
  | nil => simp at h
  | cons o l ih =>
    by_cases ho : o.thread = i
    · subst ho
      rw [trail_cons_self] at h
      cases t₁ with
      | nil =>
        simp only [List.nil_append, List.cons.injEq] at h
        exact ⟨[], o, l, rfl, rfl, h.1, rfl, h.2⟩
      | cons e t₁ =>
        simp only [List.cons_append, List.cons.injEq] at h
        rcases ih h.2 with ⟨l₁, o', l₂, rfl, h1, h2, h3, h4⟩
        exact ⟨o :: l₁, o', l₂, rfl, h1, h2, by rw [trail_cons_self, h.1, h3], h4⟩
    · rw [trail_cons_other ho] at h
      rcases ih h with ⟨l₁, o', l₂, rfl, h1, h2, h3, h4⟩
      exact ⟨o :: l₁, o', l₂, rfl, h1, h2, by rw [trail_cons_other ho, h3], h4⟩

/-- The shared states in which thread `i` took its turns. -/
def statesAt (i : ℕ) (l : List (Occ S σ)) : List σ := (l.filter fun o => o.thread = i).map Occ.pre

theorem mem_statesAt {i : ℕ} {l : List (Occ S σ)} {s : σ} :
    s ∈ statesAt i l ↔ ∃ o ∈ l, o.thread = i ∧ o.pre = s := by
  simp [statesAt, and_assoc]

theorem records_append {h : Handler S σ} {l l' : List (Occ S σ)} {s s' : σ} :
    Records h s (l ++ l') s' ↔ ∃ m, Records h s l m ∧ Records h m l' s' := by
  induction l generalizing s with
  | nil => simp [Records]
  | cons o l ih =>
    simp only [List.cons_append, Records, ih]
    constructor
    · rintro ⟨h1, h2, m, h3, h4⟩
      exact ⟨m, ⟨h1, h2, h3⟩, h4⟩
    · rintro ⟨m, ⟨h1, h2, h3⟩, h4⟩
      exact ⟨h1, h2, m, h3, h4⟩

/-- Every recorded answer is the one the handler gave. -/
theorem Records.resp {h : Handler S σ} {l : List (Occ S σ)} {s s' : σ} (hl : Records h s l s') :
    ∀ o ∈ l, o.event.resp = (h o.event.op o.pre).1 := by
  intro o ho
  rcases List.append_of_mem ho with ⟨l₁, l₂, rfl⟩
  rcases records_append.mp hl with ⟨m, -, hpre, hresp, -⟩
  exact hpre ▸ hresp

/-- A property of the shared state that every recorded operation keeps holds
at the end of the history. -/
theorem Records.invariant {h : Handler S σ} {P : σ → Prop} {l : List (Occ S σ)} {s s' : σ}
    (hl : Records h s l s') (hs : P s)
    (hstep : ∀ o ∈ l, P o.pre → P (h o.event.op o.pre).2) : P s' := by
  induction l generalizing s with
  | nil => exact hl ▸ hs
  | cons o l ih =>
    rcases hl with ⟨h1, -, h3⟩
    rw [List.forall_mem_cons] at hstep
    exact ih h3 (h1 ▸ hstep.1 (h1 ▸ hs)) hstep.2

/-- The same, at each event of the history. -/
theorem Records.invariant_at {h : Handler S σ} {P : σ → Prop} {l : List (Occ S σ)} {s s' : σ}
    (hl : Records h s l s') (hs : P s)
    (hstep : ∀ o ∈ l, P o.pre → P (h o.event.op o.pre).2) : ∀ o ∈ l, P o.pre := by
  intro o ho
  rcases List.append_of_mem ho with ⟨l₁, l₂, rfl⟩
  rcases records_append.mp hl with ⟨m, h1, h2, -⟩
  exact h2 ▸ h1.invariant hs fun o' ho' => hstep o' (List.mem_append_left _ ho')

/-- A reflexive and transitive relation that every recorded operation keeps
holds from the start to each event and from each event to the end. -/
theorem Records.rel {h : Handler S σ} {T : σ → σ → Prop} (hrefl : ∀ s, T s s)
    (htrans : ∀ s s₁ s', T s s₁ → T s₁ s' → T s s') {l : List (Occ S σ)} {s s' : σ}
    (hl : Records h s l s') (hstep : ∀ o ∈ l, T o.pre (h o.event.op o.pre).2) :
    ∀ o ∈ l, T s o.pre ∧ T o.pre s' := by
  intro o ho
  rcases List.append_of_mem ho with ⟨l₁, l₂, rfl⟩
  rcases records_append.mp hl with ⟨m, hbefore, rfl, -, hafter⟩
  constructor
  · refine hbefore.invariant (P := fun s₁ => T s s₁) (hrefl s) fun o' ho' h' => ?_
    exact htrans _ _ _ h' (hstep o' (List.mem_append_left _ ho'))
  · refine hafter.invariant (P := fun s₁ => T o.pre s₁) (hstep o ho) fun o' ho' h' => ?_
    exact htrans _ _ _ h' (hstep o' (List.mem_append_right _ (List.mem_cons_of_mem _ ho')))

/-- What a run adds to the history records the run of the shared state, each
thread followed a path, and only threads that got a turn did anything. -/
theorem Pool.run_history (h : Handler S σ) (c : Pool S σ α) (sched : List ℕ) :
    ∃ new, (c.run h sched).hist = c.hist ++ new ∧
      Records h c.shared new (c.run h sched).shared ∧
      (∀ i, Prog.Path (c.threads i) (trail i new) ((c.run h sched).threads i)) ∧
      ∀ o ∈ new, o.thread ∈ sched := by
  induction sched generalizing c with
  | nil => exact ⟨[], by simp, rfl, fun i => .refl _, by simp⟩
  | cons i sched ih =>
    rcases ih (c.step h i) with ⟨new, hhist, hrecords, hpath, hturn⟩
    have hlater : ∀ o ∈ new, o.thread ∈ i :: sched := fun o ho =>
      List.mem_cons_of_mem i (hturn o ho)
    rcases c.step_cases h i with ⟨a, -, hc⟩ | ⟨op, k, hi, hc⟩
    · -- a finished thread does nothing with its turn
      rw [Pool.run_cons, hhist]
      rw [hc] at hrecords hpath ⊢
      exact ⟨new, rfl, hrecords, hpath, hlater⟩
    · rw [Pool.run_cons, hhist]
      rw [hc] at hrecords hpath ⊢
      refine ⟨⟨i, c.shared, ⟨op, (h op c.shared).1⟩⟩ :: new, by simp, ⟨rfl, rfl, hrecords⟩, ?_, ?_⟩
      · intro j
        by_cases hj : i = j
        · subst hj
          rw [trail_cons_self ⟨i, c.shared, _⟩, hi]
          exact .step _ (by simpa using hpath i)
        · rw [trail_cons_other (by exact hj)]
          simpa [Function.update_of_ne (Ne.symm hj)] using hpath j
      · rw [List.forall_mem_cons]
        exact ⟨List.mem_cons_self, hlater⟩

/-- From the start on, the history is that of the whole run. -/
theorem Pool.run_from_start (h : Handler S σ) (s : σ) (threads : ℕ → Prog S α) (sched : List ℕ) :
    let c := Pool.run h { shared := s, threads := threads, hist := [] } sched
    Records h s c.hist c.shared ∧ ∀ i, Prog.Path (threads i) (trail i c.hist) (c.threads i) := by
  intro c
  obtain ⟨new, hhist, hrecords, hpaths, -⟩ :=
    Pool.run_history h { shared := s, threads := threads, hist := [] } sched
  have hnew : c.hist = new := hhist.trans (List.nil_append new)
  rw [hnew]
  exact ⟨hrecords, hpaths⟩

/-! ## One program alone -/

/-- What an operation does, as a relation. -/
def Handler.Does (h : Handler S σ) (op : S.Op) (s : σ) (r : S.Resp op) (s' : σ) : Prop :=
  h op s = (r, s')

/-- Whatever replays the handler has a history. -/
theorem exists_records {h : Handler S σ} {tr : List (Event S)} {s s' : σ}
    (hr : Prog.Replay h.Does s tr s') :
    ∃ l, Records h s l s' ∧ l.map Occ.event = tr := by
  induction hr with
  | nil s => exact ⟨[], rfl, rfl⟩
  | @cons s s₁ s' ev tr hstep _ ih =>
    rcases ih with ⟨l, hl, rfl⟩
    have hresp : (h ev.op s).1 = ev.resp := congrArg Prod.fst hstep
    have hstate : (h ev.op s).2 = s₁ := congrArg Prod.snd hstep
    exact ⟨⟨0, s, ev⟩ :: l, ⟨rfl, hresp.symm, hstate ▸ hl⟩, rfl⟩

/-- Run a program from start to end with nothing in between. -/
def Prog.exec (h : Handler S σ) : Prog S α → σ → α × σ
  | .ret a, s => (a, s)
  | .call op k, s => (k (h op s).1).exec h (h op s).2

@[simp] theorem Prog.exec_bind {β : Type} (h : Handler S σ) (p : Prog S α) (f : α → Prog S β)
    (s : σ) : (p >>= f).exec h s = (f (p.exec h s).1).exec h (p.exec h s).2 := by
  induction p generalizing s with
  | ret a => rfl
  | call op k ih => exact ih _ _

/-- Such a run is a finished path that replays the handler. -/
theorem Prog.exec_path (h : Handler S σ) (p : Prog S α) (s : σ) :
    ∃ tr, Prog.Path p tr (.ret (p.exec h s).1) ∧ Prog.Replay h.Does s tr (p.exec h s).2 := by
  induction p generalizing s with
  | ret a => exact ⟨[], .refl _, .nil s⟩
  | call op k ih =>
    rcases ih (h op s).1 (h op s).2 with ⟨tr, hpath, hreplay⟩
    exact ⟨⟨op, (h op s).1⟩ :: tr, .step _ hpath, .cons rfl hreplay⟩

end Interact
