import RsTenant.Lib.Prog

/-! # Programs that keep to a script

A script is a whole run of a program, the answers included. `Plays Scripts x`
says that `x` keeps to scripts of a given kind, whatever it is answered: when it
performs an operation, then one of the scripts has begun with everything so far,
answers included, and goes on with this operation; and what it has performed when
it succeeds is a script, with the result as its result. It is the rule for a
sequence (`Plays.bind`) that makes scripts compose.

Below it, `p.Follows L R w` speaks about a program by its whole history: after
the history `w`, every operation is one that `L` allows at that moment, and a
result satisfies `R` with the history at the end.
-/

namespace Interact

variable {S : Sig} {ε α β : Type}

/-- After `before`, the script goes on with `op`. -/
def GoesOn (script before : List (Event S)) (op : S.Op) : Prop :=
  ∃ ev rest, script = before ++ ev :: rest ∧ ev.op = op

namespace GoesOn

variable {script before : List (Event S)} {op : S.Op}

/-- A script that is followed by another goes on as before. -/
theorem append_right (h : GoesOn script before op) (later : List (Event S)) :
    GoesOn (script ++ later) before op := by
  obtain ⟨ev, rest, rfl, hop⟩ := h
  exact ⟨ev, rest ++ later, by simp, hop⟩

theorem append_left (h : GoesOn script before op) (earlier : List (Event S)) :
    GoesOn (earlier ++ script) (earlier ++ before) op := by
  obtain ⟨ev, rest, rfl, hop⟩ := h
  exact ⟨ev, rest, (List.append_assoc _ _ _).symm, hop⟩

theorem prefix_script (h : GoesOn script before op) : before <+: script := by
  obtain ⟨ev, rest, rfl, -⟩ := h
  exact List.prefix_append _ _

theorem prefix_ops (h : GoesOn script before op) :
    before.map Event.op ++ [op] <+: script.map Event.op := by
  obtain ⟨ev, rest, rfl, rfl⟩ := h
  rw [List.map_append, List.map_cons, List.prefix_append_right_inj]
  exact List.prefix_append [ev.op] _

end GoesOn

namespace Prog

/-- What has been answered before the last operation was issued. -/
def settled (tr : List (Event S)) : Prog S α → List (Event S)
  | .ret _ => tr.dropLast
  | .call _ _ => tr

theorem settled_map (tr : List (Event S)) (q : Prog S α) (f : α → β) :
    settled tr (q >>= fun a => .ret (f a)) = settled tr q := by
  cases q <;> rfl

/-- Whatever is answered from `w` on, `L` allows each operation after all that
has been answered before, and `R` holds of a result and the whole history. -/
def Follows (L : List (Event S) → S.Op → Prop) (R : List (Event S) → α → Prop) :
    List (Event S) → Prog S α → Prop
  | w, .ret a => R w a
  | w, .call op k => L w op ∧ ∀ r, Follows L R (w ++ [⟨op, r⟩]) (k r)

variable {L L' : List (Event S) → S.Op → Prop} {R R' : List (Event S) → α → Prop}
  {w : List (Event S)} {p q : Prog S α} {tr : List (Event S)}

/-- The rule for a sequence: what the first program ends with is where the second
one starts. -/
theorem Follows.bind {R' : List (Event S) → β → Prop} {f : α → Prog S β} (hp : p.Follows L R w)
    (hf : ∀ w' a, R w' a → (f a).Follows L R' w') : (p >>= f).Follows L R' w := by
  induction p generalizing w with
  | ret a => exact hf w a hp
  | call op k ih => exact ⟨hp.1, fun r => ih r (hp.2 r)⟩

/-- The same program with more behind it. -/
theorem Follows.after (hp : p.Follows L R w) (earlier : List (Event S))
    (hL : ∀ v op, L v op → L' (earlier ++ v) op) (hR : ∀ v a, R v a → R' (earlier ++ v) a) :
    p.Follows L' R' (earlier ++ w) := by
  induction p generalizing w with
  | ret a => exact hR w a hp
  | call op k ih =>
    refine ⟨hL w op hp.1, fun r => ?_⟩
    rw [List.append_assoc]
    exact ih r (hp.2 r)

/-- Along a path the history grows. -/
theorem Follows.path (hp : p.Follows L R w) (h : Path p tr q) : q.Follows L R (w ++ tr) := by
  induction h generalizing w with
  | refl p => rwa [List.append_nil]
  | @step op k r tr q _ ih =>
    have hrest := ih (hp.2 r)
    rwa [List.append_assoc] at hrest

/-- Nothing has happened yet, or the last operation was allowed. -/
theorem Follows.issued (hp : p.Follows L R []) (h : Path p tr q) :
    (tr = [] ∧ ∃ a, q = .ret a) ∨ ∃ op, L (settled tr q) op ∧
      Prog.issued tr q = (settled tr q).map Event.op ++ [op] := by
  cases q with
  | call op k => exact .inr ⟨op, (hp.path h).1, rfl⟩
  | ret a =>
    rcases List.eq_nil_or_concat tr with rfl | ⟨pre, ev, rfl⟩
    · exact .inl ⟨rfl, a, rfl⟩
    · rw [List.concat_eq_append] at h ⊢
      obtain ⟨p', hpre, hpost⟩ := h.split
      have hp' := hp.path hpre
      refine .inr ⟨ev.op, ?_, ?_⟩
      · -- the last event is the answer to an operation that was issued after `pre`
        rw [settled, List.dropLast_concat]
        cases hpost with
        | step r _ => exact hp'.1
      · rw [settled, List.dropLast_concat]
        exact List.map_append

end Prog

namespace Fallible

variable {Scripts Scripts' : List (Event S) → α → Prop} {x : Fallible S ε α}

/-- The program keeps to the scripts, which come with their results. -/
def Plays (Scripts : List (Event S) → α → Prop) (x : Fallible S ε α) : Prop :=
  x.run.Follows (fun w op => ∃ script a, Scripts script a ∧ GoesOn script w op)
    (fun w => OnOk (Scripts w)) []

namespace Plays

/-- More scripts are easier to keep to. -/
theorem weaken (hx : Plays Scripts x) (h : ∀ s a, Scripts s a → Scripts' s a) :
    Plays Scripts' x := by
  refine Prog.Follows.after hx [] ?_ ?_
  · rintro w op ⟨script, a, hscript, hop⟩
    exact ⟨script, a, h _ _ hscript, hop⟩
  · intro w res hres
    cases res with
    | ok a => exact h _ _ hres
    | error e => trivial

/-- A program that has its result keeps to the empty script. -/
theorem of_pure {a : α} (h : Scripts [] a) : Plays (ε := ε) Scripts (pure a : Fallible S ε α) := h

/-- One that fails promises nothing. -/
theorem of_throw (e : ε) : Plays Scripts (throw e : Fallible S ε α) := trivial

/-- The scripts of a sequence are the scripts of its parts, one after another.
Each result of the first part must have a script of the second to go on with. -/
theorem bind {T : α → List (Event S) → β → Prop} {Whole : List (Event S) → β → Prop}
    {f : α → Fallible S ε β} (hx : Plays Scripts x) (hf : ∀ a, Plays (T a) (f a))
    (hne : ∀ a, ∃ s b, T a s b)
    (hwhole : ∀ s₁ a s₂ b, Scripts s₁ a → T a s₂ b → Whole (s₁ ++ s₂) b) :
    Plays Whole (x >>= f) := by
  unfold Plays
  rw [run_bind]
  refine Prog.Follows.bind (R := fun w => OnOk (Scripts w)) ?_ ?_
  · refine Prog.Follows.after hx [] ?_ fun w res hres => hres
    rintro w op ⟨script, a, hscript, hop⟩
    obtain ⟨s, b, hs⟩ := hne a
    exact ⟨script ++ s, b, hwhole _ _ _ _ hscript hs, hop.append_right s⟩
  · intro w res hres
    cases res with
    | error e => trivial
    | ok a =>
      -- the second part starts after a script of the first
      have hrest : (f a).run.Follows (fun w op => ∃ script b, Whole script b ∧ GoesOn script w op)
          (fun w => OnOk (Whole w)) (w ++ []) := by
        refine Prog.Follows.after (hf a) w ?_ ?_
        · rintro v op ⟨script, b, hscript, hop⟩
          exact ⟨w ++ script, b, hwhole _ _ _ _ hres hscript, hop.append_left w⟩
        · intro v res' hres'
          cases res' with
          | ok b => exact hwhole _ _ _ _ hres hres'
          | error e => trivial
      rwa [List.append_nil] at hrest

/-- What is done with a result does not change what is performed. -/
theorem map {f : α → β} {Whole : List (Event S) → β → Prop} (hx : Plays Scripts x)
    (hwhole : ∀ s a, Scripts s a → Whole s (f a)) : Plays Whole (x >>= fun a => pure (f a)) := by
  refine hx.bind (T := fun a s b => s = [] ∧ b = f a) (fun a => of_pure ⟨rfl, rfl⟩)
    (fun a => ⟨[], f a, rfl, rfl⟩) ?_
  rintro s₁ a s₂ b hs ⟨rfl, rfl⟩
  rw [List.append_nil]
  exact hwhole s₁ a hs

/-- What such a program has done on a path. -/
theorem path (hx : Plays Scripts x) (hne : ∃ s a, Scripts s a) {tr : List (Event S)}
    {q : Prog S (Except ε α)} (h : Prog.Path x.run tr q) :
    (∃ script a, Scripts script a ∧ Prog.settled tr q <+: script ∧
      Prog.issued tr q <+: script.map Event.op) ∧
    ∀ a, q = .ret (.ok a) → Scripts tr a := by
  constructor
  · rcases Prog.Follows.issued hx h with ⟨rfl, res, rfl⟩ | ⟨op, ⟨script, a, hscript, hop⟩, hissued⟩
    · obtain ⟨s, a, hs⟩ := hne
      exact ⟨s, a, hs, List.nil_prefix, List.nil_prefix⟩
    · exact ⟨script, a, hscript, hop.prefix_script, hissued ▸ hop.prefix_ops⟩
  · rintro a rfl
    exact Prog.Follows.path hx h

end Plays

/-- The program is one operation, and `ev a` is its event when it returns `a`; it
may take other answers for errors. -/
def Asks (x : Fallible S ε α) (ev : α → Event S) : Prop :=
  ∃ (op : S.Op) (f : S.Resp op → Except ε α), x.run = .call op (fun r => .ret (f r)) ∧
    (∀ a, (ev a).op = op) ∧ ∀ r a, f r = .ok a → ev a = ⟨op, r⟩

/-- Its scripts are the single events. -/
theorem Asks.plays [Nonempty α] {ev : α → Event S} (h : x.Asks ev) :
    Plays (fun s a => s = [ev a]) x := by
  obtain ⟨op, f, hrun, hop, hev⟩ := h
  unfold Plays
  rw [hrun]
  constructor
  · obtain ⟨a⟩ := ‹Nonempty α›
    exact ⟨[ev a], a, rfl, ev a, [], rfl, hop a⟩
  · intro r
    show OnOk _ (f r)
    cases hres : f r with
    | ok a => exact (congrArg (fun e => [e]) (hev r a hres)).symm
    | error e => trivial

end Fallible

end Interact
