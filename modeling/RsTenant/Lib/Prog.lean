import Mathlib.Logic.Relation
import Mathlib.Data.List.Basic

/-! # Interactive programs

A program that talks to its surroundings is a tree: it either returns, or
performs one operation and continues with whatever answer it gets. What the
operations do is left open, so the same program can be run against a fixed
table of answers, along an arbitrary path of answers, or one operation at a
time next to other programs (`Pool.lean`).

* `Prog.eval`: run against a table of answers;
* `Prog.Path`: what a program can do when nothing is known about the answers;
* `Prog.Triple`: a rely/guarantee triple, with one rule per constructor;
* `Prog.subst`: implement every operation by a program over other operations.
-/

namespace Interact

/-- The operations a program may perform and the type of the answer to each. -/
structure Sig where
  Op : Type
  Resp : Op → Type

/-- A program over `S` that returns an `α`. -/
inductive Prog (S : Sig) (α : Type) : Type
  | ret (a : α)
  | call (op : S.Op) (k : S.Resp op → Prog S α)

/-- One performed operation with its answer. -/
structure Event (S : Sig) where
  op : S.Op
  resp : S.Resp op

namespace Prog

variable {S S' : Sig} {α β : Type}

/-- Sequencing grafts the rest of the program onto the leaves. -/
def bind : Prog S α → (α → Prog S β) → Prog S β
  | .ret a, f => f a
  | .call op k, f => .call op fun r => (k r).bind f

instance : Monad (Prog S) where
  pure := .ret
  bind := bind

/-- Perform one operation and return its answer. -/
def perform (op : S.Op) : Prog S (S.Resp op) := .call op .ret

@[simp] theorem ret_bind (a : α) (f : α → Prog S β) : (Prog.ret a >>= f) = f a := rfl

@[simp] theorem call_bind (op : S.Op) (k : S.Resp op → Prog S α) (f : α → Prog S β) :
    (Prog.call op k >>= f) = .call op fun r => k r >>= f := rfl

theorem bind_ret (p : Prog S α) : (p >>= fun a => Prog.ret a) = p := by
  induction p with
  | ret a => rfl
  | call op k ih => simp [ih]

theorem bind_bind {γ : Type} (p : Prog S α) (f : α → Prog S β) (g : β → Prog S γ) :
    (p >>= f >>= g) = p >>= fun a => f a >>= g := by
  induction p with
  | ret a => rfl
  | call op k ih => simp [ih]

instance : LawfulMonad (Prog S) :=
  LawfulMonad.mk' (Prog S) bind_ret (fun _ _ => rfl) bind_bind

/-! ## Running against a table of answers -/

/-- Run a program whose every operation is answered from the table `h`. -/
def eval (h : (op : S.Op) → S.Resp op) : Prog S α → α
  | .ret a => a
  | .call op k => (k (h op)).eval h

@[simp] theorem eval_ret (h : (op : S.Op) → S.Resp op) (a : α) : (Prog.ret a).eval h = a := rfl

@[simp] theorem eval_call (h : (op : S.Op) → S.Resp op) (op : S.Op) (k : S.Resp op → Prog S α) :
    (Prog.call op k).eval h = (k (h op)).eval h := rfl

@[simp] theorem eval_bind (h : (op : S.Op) → S.Resp op) (p : Prog S α) (f : α → Prog S β) :
    (p >>= f).eval h = (f (p.eval h)).eval h := by
  induction p with
  | ret a => rfl
  | call op k ih => simpa using ih (h op)

/-! ## The operations a program may perform -/

/-- Every operation the program can ever perform satisfies `G`, whatever the
answers are. -/
def Only (G : S.Op → Prop) : Prog S α → Prop
  | .ret _ => True
  | .call op k => G op ∧ ∀ r, (k r).Only G

/-- A sequence performs what its parts perform. -/
theorem Only.bind {G : S.Op → Prop} {p : Prog S α} {f : α → Prog S β}
    (hp : p.Only G) (hf : ∀ a, (f a).Only G) : (p >>= f).Only G := by
  induction p with
  | ret a => exact hf a
  | call op k ih => exact ⟨hp.1, fun r => ih r (hp.2 r)⟩

theorem Only.mono {G G' : S.Op → Prop} (hG : ∀ op, G op → G' op) {p : Prog S α}
    (hp : p.Only G) : p.Only G' := by
  induction p with
  | ret a => trivial
  | call op k ih => exact ⟨hG op hp.1, fun r => ih r (hp.2 r)⟩

/-- Two tables that agree on the operations a program can perform give the
same result. -/
theorem Only.eval_congr {G : S.Op → Prop} {p : Prog S α} (hp : p.Only G)
    {h h' : (op : S.Op) → S.Resp op} (hh : ∀ op, G op → h op = h' op) :
    p.eval h = p.eval h' := by
  induction p with
  | ret a => rfl
  | call op k ih =>
    simp only [eval_call]
    rw [hh op hp.1]
    exact ih _ (hp.2 _)

/-! ## Paths -/

/-- `p.Path tr p'`: performing the operations of `tr` and getting the answers
recorded there takes `p` to `p'`. -/
inductive Path : Prog S α → List (Event S) → Prog S α → Prop
  | refl (p : Prog S α) : Path p [] p
  | step {op : S.Op} {k : S.Resp op → Prog S α} (r : S.Resp op) {tr : List (Event S)}
      {p' : Prog S α} : Path (k r) tr p' → Path (.call op k) (⟨op, r⟩ :: tr) p'

/-- A path splits at every point of its trace. -/
theorem Path.split {p p'' : Prog S α} {tr tr' : List (Event S)}
    (h : Path p (tr ++ tr') p'') : ∃ p', Path p tr p' ∧ Path p' tr' p'' := by
  induction tr generalizing p with
  | nil => exact ⟨p, .refl p, h⟩
  | cons ev tr ih =>
    cases h with
    | step r h =>
      rcases ih h with ⟨p', h1, h2⟩
      exact ⟨p', .step r h1, h2⟩

/-- The answers determine the path. -/
theorem Path.cancel {p p₁ p₂ : Prog S α} {tr post : List (Event S)} (h₁ : Path p tr p₁)
    (h₂ : Path p (tr ++ post) p₂) : Path p₁ post p₂ := by
  induction h₁ with
  | refl p => exact h₂
  | step r _ ih =>
    -- the second path goes the same way, as its trace begins with the same answers
    cases h₂ with
    | step _ h₂ => exact ih h₂

/-- A program that has returned goes nowhere. -/
theorem Path.of_ret {a : α} {tr : List (Event S)} {p : Prog S α}
    (h : Path (.ret a) tr p) : tr = [] ∧ p = .ret a := by
  cases h
  exact ⟨rfl, rfl⟩

/-- Along a path nothing else is performed, and nothing else is left to perform. -/
theorem Path.only {G : S.Op → Prop} {p p' : Prog S α} {tr : List (Event S)}
    (h : Path p tr p') (hp : p.Only G) : (∀ ev ∈ tr, G ev.op) ∧ p'.Only G := by
  induction h with
  | refl p => exact ⟨by simp, hp⟩
  | step r _ ih =>
    rcases ih (hp.2 r) with ⟨h1, h2⟩
    refine ⟨?_, h2⟩
    intro ev hev
    rcases List.mem_cons.mp hev with rfl | hev
    · exact hp.1
    · exact h1 ev hev

/-- A finished path of a sequence is a finished path of the first part
followed by one of the second. -/
theorem Path.of_bind {p : Prog S α} {f : α → Prog S β} {tr : List (Event S)} {b : β}
    (h : Path (p >>= f) tr (.ret b)) :
    ∃ tr₁ tr₂ a, tr = tr₁ ++ tr₂ ∧ Path p tr₁ (.ret a) ∧ Path (f a) tr₂ (.ret b) := by
  induction p generalizing tr with
  | ret a => exact ⟨[], tr, a, rfl, .refl _, h⟩
  | call op k ih =>
    cases h with
    | step r h =>
      rcases ih r h with ⟨tr₁, tr₂, a, rfl, h1, h2⟩
      exact ⟨⟨op, r⟩ :: tr₁, tr₂, a, rfl, .step r h1, h2⟩

/-- Paths of the two parts make a path of the sequence. -/
theorem Path.bind {p : Prog S α} {f : α → Prog S β} {tr₁ tr₂ : List (Event S)} {a : α} {b : β}
    (h₁ : Path p tr₁ (.ret a)) (h₂ : Path (f a) tr₂ (.ret b)) :
    Path (p >>= f) (tr₁ ++ tr₂) (.ret b) := by
  generalize hq : Prog.ret a = q at h₁
  induction h₁ with
  | refl p => subst hq; exact h₂
  | step r _ ih => exact .step r (ih hq)

/-- A path of a sequence that has not finished its first part, or has. -/
theorem Path.bind_cases {p : Prog S α} {f : α → Prog S β} {tr : List (Event S)} {q : Prog S β}
    (h : Path (p >>= f) tr q) :
    (∃ op k, Path p tr (.call op k) ∧ q = .call op fun r => k r >>= f) ∨
      ∃ tr₁ tr₂ a, tr = tr₁ ++ tr₂ ∧ Path p tr₁ (.ret a) ∧ Path (f a) tr₂ q := by
  induction p generalizing tr with
  | ret a => exact .inr ⟨[], tr, a, rfl, .refl _, h⟩
  | call op k ih =>
    cases h with
    | refl =>
      -- the sequence waits where its first part waits
      exact .inl ⟨op, k, .refl _, rfl⟩
    | step r h =>
      rcases ih r h with ⟨op', k', hp, rfl⟩ | ⟨tr₁, tr₂, a, rfl, h₁, h₂⟩
      · exact .inl ⟨op', k', .step r hp, rfl⟩
      · exact .inr ⟨⟨op, r⟩ :: tr₁, tr₂, a, rfl, .step r h₁, h₂⟩

/-- What has been performed, and the operation that the program waits for. -/
def issued (tr : List (Event S)) : Prog S α → List S.Op
  | .ret _ => tr.map Event.op
  | .call op _ => tr.map Event.op ++ [op]

theorem issued_append (pre tr : List (Event S)) (q : Prog S α) :
    issued (pre ++ tr) q = pre.map Event.op ++ issued tr q := by
  cases q <;> simp [issued]

theorem issued_cons (ev : Event S) (tr : List (Event S)) (q : Prog S α) :
    issued (ev :: tr) q = ev.op :: issued tr q :=
  issued_append [ev] tr q

/-- A sequence whose second part only returns performs what its first part
does. -/
theorem Path.issued_bind {p : Prog S α} {f : α → Prog S β} (hf : ∀ a, ∃ b, f a = .ret b)
    {tr : List (Event S)} {q : Prog S β} (h : Path (p >>= f) tr q) :
    ∃ q', Path p tr q' ∧ issued tr q' = issued tr q := by
  rcases h.bind_cases with ⟨op, k, hp, rfl⟩ | ⟨tr₁, tr₂, a, rfl, hp, hrest⟩
  · exact ⟨.call op k, hp, rfl⟩
  · obtain ⟨b, hb⟩ := hf a
    rw [hb] at hrest
    obtain ⟨rfl, rfl⟩ := hrest.of_ret
    rw [List.append_nil]
    exact ⟨.ret a, hp, rfl⟩

/-- What the program has returned, if it has. -/
def result? : Prog S α → Option α
  | .ret a => some a
  | .call _ _ => none

/-- The rest of a program whose result is passed on. -/
theorem Path.of_map {p : Prog S α} {f : α → β} {tr : List (Event S)} {q : Prog S β}
    (h : Path (p >>= fun a => .ret (f a)) tr q) :
    ∃ q', Path p tr q' ∧ q = q' >>= fun a => .ret (f a) := by
  induction p generalizing tr with
  | ret a =>
    obtain ⟨rfl, rfl⟩ := h.of_ret
    exact ⟨.ret a, .refl _, rfl⟩
  | call op k ih =>
    cases h with
    | refl => exact ⟨.call op k, .refl _, rfl⟩
    | step r h =>
      obtain ⟨q', hq', rfl⟩ := ih r h
      exact ⟨q', .step r hq', rfl⟩

/-- Passing the result on performs nothing. -/
theorem issued_map (tr : List (Event S)) (q : Prog S α) (f : α → β) :
    issued tr (q >>= fun a => .ret (f a)) = issued tr q := by
  cases q <;> rfl

theorem result?_map (q : Prog S α) (f : α → β) :
    (q >>= fun a => .ret (f a)).result? = q.result?.map f := by
  cases q <;> rfl

/-! ## Rely/guarantee triples -/

/-- As long as the answers satisfy the rely `A`, every operation performed
satisfies the guarantee `G` and a returned value satisfies `Q`. -/
def Triple (A : (op : S.Op) → S.Resp op → Prop) (G : S.Op → Prop) :
    Prog S α → (α → Prop) → Prop
  | .ret a, Q => Q a
  | .call op k, Q => G op ∧ ∀ r, A op r → (k r).Triple A G Q

section Triple

variable {A : (op : S.Op) → S.Resp op → Prop} {G : S.Op → Prop}

/-- The postcondition of the first part is what the second starts from. -/
theorem Triple.bind {p : Prog S α} {f : α → Prog S β} {P : α → Prop} {Q : β → Prop}
    (hp : p.Triple A G P) (hf : ∀ a, P a → (f a).Triple A G Q) : (p >>= f).Triple A G Q := by
  induction p with
  | ret a => exact hf a hp
  | call op k ih => exact ⟨hp.1, fun r hr => ih r (hp.2 r hr)⟩

/-- The rely may be stronger, the guarantee and the postcondition weaker. -/
theorem Triple.mono {A' : (op : S.Op) → S.Resp op → Prop} {G' : S.Op → Prop}
    {P Q : α → Prop} (hA : ∀ op r, A' op r → A op r) (hG : ∀ op, G op → G' op)
    (hQ : ∀ a, P a → Q a) {p : Prog S α} (hp : p.Triple A G P) : p.Triple A' G' Q := by
  induction p with
  | ret a => exact hQ a hp
  | call op k ih => exact ⟨hG op hp.1, fun r hr => ih r (hp.2 r (hA op r hr))⟩

theorem Triple.weaken {P Q : α → Prop} {p : Prog S α} (hp : p.Triple A G P)
    (hQ : ∀ a, P a → Q a) : p.Triple A G Q :=
  hp.mono (fun _ _ h => h) (fun _ h => h) hQ

/-- Two triples about one program hold together. -/
theorem Triple.and {G' : S.Op → Prop} {P Q : α → Prop} {p : Prog S α} (hP : p.Triple A G P)
    (hQ : p.Triple A G' Q) : p.Triple A (fun op => G op ∧ G' op) (fun a => P a ∧ Q a) := by
  induction p with
  | ret a => exact ⟨hP, hQ⟩
  | call op k ih => exact ⟨⟨hP.1, hQ.1⟩, fun r hr => ih r (hP.2 r hr) (hQ.2 r hr)⟩

/-- Only the operations that are performed need answers that meet the rely. -/
theorem Triple.confined {Q : α → Prop} {p : Prog S α} (hp : p.Triple A G Q) :
    p.Triple (fun op r => G op → A op r) G Q := by
  induction p with
  | ret a => exact hp
  | call op k ih => exact ⟨hp.1, fun r hr => ih r (hp.2 r (hr hp.1))⟩

/-- Operations the program never performs may be promised anything. -/
theorem Only.triple {p : Prog S α} (hp : p.Only G) : p.Triple A G fun _ => True := by
  induction p with
  | ret a => trivial
  | call op k ih => exact ⟨hp.1, fun r _ => ih r (hp.2 r)⟩

/-- Under a rely that forces the answers of `h`, a program returns what it
returns against the table `h`. -/
theorem Only.triple_eval {p : Prog S α} (hp : p.Only G) {h : (op : S.Op) → S.Resp op}
    (hA : ∀ op r, G op → A op r → r = h op) : p.Triple A G (fun a => a = p.eval h) := by
  induction p with
  | ret a => rfl
  | call op k ih =>
    refine ⟨hp.1, fun r hr => ?_⟩
    -- the rely leaves one answer, and that is the one in the table
    rw [hA op r hp.1 hr]
    exact ih _ (hp.2 _)

/-- A triple holds along every path whose answers meet the rely. -/
theorem Triple.path {p p' : Prog S α} {Q : α → Prop} (hp : p.Triple A G Q)
    {tr : List (Event S)} (h : Path p tr p') (hA : ∀ ev ∈ tr, A ev.op ev.resp) :
    p'.Triple A G Q ∧ ∀ ev ∈ tr, G ev.op := by
  induction h with
  | refl p => exact ⟨hp, by simp⟩
  | step r _ ih =>
    rw [List.forall_mem_cons] at hA
    rcases ih (hp.2 r hA.1) hA.2 with ⟨h1, h2⟩
    refine ⟨h1, ?_⟩
    rw [List.forall_mem_cons]
    exact ⟨hp.1, h2⟩

end Triple

/-! ## Implementing operations -/

/-- Replace every operation by the program that implements it. -/
def subst (f : (op : S.Op) → Prog S' (S.Resp op)) : Prog S α → Prog S' α
  | .ret a => .ret a
  | .call op k => f op >>= fun r => (k r).subst f

/-- A sequence is implemented part by part. -/
theorem subst_bind (f : (op : S.Op) → Prog S' (S.Resp op)) (p : Prog S α) (g : α → Prog S β) :
    (p >>= g).subst f = p.subst f >>= fun a => (g a).subst f := by
  induction p with
  | ret a => rfl
  | call op k ih =>
    -- both sides carry out the operation first
    change (f op >>= fun r => (k r >>= g).subst f) = (f op >>= fun r => (k r).subst f) >>= _
    rw [bind_bind]
    exact congrArg (f op >>= ·) (funext ih)

/-- What an implementation performs comes from the operations that are implemented. -/
theorem Only.subst {G : S.Op → Prop} {G' : S'.Op → Prop}
    {f : (op : S.Op) → Prog S' (S.Resp op)} (hf : ∀ op, G op → (f op).Only G') {p : Prog S α}
    (hp : p.Only G) : (p.subst f).Only G' := by
  induction p with
  | ret a => trivial
  | call op k ih => exact (hf op hp.1).bind fun r => ih r (hp.2 r)

/-- A triple carries over to the implementation when every operation's
implementation delivers the answers the program relies on. -/
theorem Triple.subst {A : (op : S.Op) → S.Resp op → Prop} {G : S.Op → Prop}
    {A' : (op : S'.Op) → S'.Resp op → Prop} {G' : S'.Op → Prop}
    {f : (op : S.Op) → Prog S' (S.Resp op)}
    (hf : ∀ op, G op → (f op).Triple A' G' (A op)) {p : Prog S α} {Q : α → Prop}
    (hp : p.Triple A G Q) : (p.subst f).Triple A' G' Q := by
  induction p with
  | ret a => exact hp
  | call op k ih => exact (hf op hp.1).bind fun r hr => ih r (hp.2 r hr)

/-! ## Ghost state -/

/-- Every operation satisfies `G` of a ghost state that is computed from what
was performed before it. -/
def Obeys {γ : Type} (upd : γ → Event S → γ) (G : γ → S.Op → Prop) : γ → Prog S α → Prop
  | _, .ret _ => True
  | g, .call op k => G g op ∧ ∀ r, Obeys upd G (upd g ⟨op, r⟩) (k r)

section Obeys

variable {γ : Type} {upd : γ → Event S → γ} {G : γ → S.Op → Prop}

/-- The second part has to obey from every ghost state. -/
theorem Obeys.bind {g : γ} {p : Prog S α} {f : α → Prog S β} (hp : Obeys upd G g p)
    (hf : ∀ g' a, Obeys upd G g' (f a)) : Obeys upd G g (p >>= f) := by
  induction p generalizing g with
  | ret a => exact hf g a
  | call op k ih => exact ⟨hp.1, fun r => ih r (hp.2 r)⟩

/-- Operations that satisfy `G` of every ghost state. -/
theorem Only.obeys {p : Prog S α} (hp : p.Only fun op => ∀ g, G g op) (g : γ) :
    Obeys upd G g p := by
  induction p generalizing g with
  | ret a => trivial
  | call op k ih => exact ⟨hp.1 g, fun r => ih r (hp.2 r) _⟩

/-- If every implementation obeys, so does the whole. -/
theorem Obeys.subst {upd : γ → Event S' → γ} {G : γ → S'.Op → Prop}
    {f : (op : S.Op) → Prog S' (S.Resp op)} (hf : ∀ op g, Obeys upd G g (f op)) (p : Prog S α)
    (g : γ) : Obeys upd G g (p.subst f) := by
  induction p generalizing g with
  | ret a => trivial
  | call op k ih => exact (hf op g).bind fun g' r => ih r g'

/-- Along a path the ghost state is the one computed from the trace so far. -/
theorem Obeys.path {g : γ} {p p' : Prog S α} (hp : Obeys upd G g p) {pre post : List (Event S)}
    {ev : Event S} (h : Path p (pre ++ ev :: post) p') : G (pre.foldl upd g) ev.op := by
  induction pre generalizing g p with
  | nil =>
    cases h with
    | step r h => exact hp.1
  | cons ev' pre ih =>
    cases h with
    | step r h => exact ih (hp.2 r) h

end Obeys

/-- The trace `tr` is what the state machine `R` can answer from `s` to `s'`. -/
inductive Replay {σ : Type} (R : (op : S.Op) → σ → S.Resp op → σ → Prop) :
    σ → List (Event S) → σ → Prop
  | nil (s : σ) : Replay R s [] s
  | cons {s s₁ s' : σ} {ev : Event S} {tr : List (Event S)} :
      R ev.op s ev.resp s₁ → Replay R s₁ tr s' → Replay R s (ev :: tr) s'

/-- The machine passes through a state at every point of its trace. -/
theorem Replay.split {σ : Type} {R : (op : S.Op) → σ → S.Resp op → σ → Prop} {s s' : σ}
    {tr tr' : List (Event S)} (h : Replay R s (tr ++ tr') s') :
    ∃ s₁, Replay R s tr s₁ ∧ Replay R s₁ tr' s' := by
  induction tr generalizing s with
  | nil => exact ⟨s, .nil s, h⟩
  | cons ev tr ih =>
    cases h with
    | cons hR h =>
      rcases ih h with ⟨s₁, h1, h2⟩
      exact ⟨s₁, .cons hR h1, h2⟩

/-- A reflexive and transitive relation that every step keeps holds from the
start to the end. -/
theorem Replay.rel {σ : Type} {R : (op : S.Op) → σ → S.Resp op → σ → Prop} {T : σ → σ → Prop}
    {G : S.Op → Prop} (hrefl : ∀ s, T s s) (htrans : ∀ s s₁ s', T s s₁ → T s₁ s' → T s s')
    (hstep : ∀ op s r s', G op → R op s r s' → T s s') {s s' : σ} {tr : List (Event S)}
    (h : Replay R s tr s') (hG : ∀ ev ∈ tr, G ev.op) : T s s' := by
  induction h with
  | nil s => exact hrefl s
  | cons hR _ ih =>
    rw [List.forall_mem_cons] at hG
    exact htrans _ _ _ (hstep _ _ _ _ hG.1 hR) (ih hG.2)

/-- One operation as its implementation performs it, start to end. -/
def Whole {σ : Type} (R : (op : S'.Op) → σ → S'.Resp op → σ → Prop)
    (f : (op : S.Op) → Prog S' (S.Resp op)) (op : S.Op) (s : σ) (r : S.Resp op) (s' : σ) : Prop :=
  ∃ tr, Path (f op) tr (.ret r) ∧ Replay R s tr s'

/-- A finished run of an implementation is a run of the program whose
operations are performed whole. -/
theorem Path.of_subst {σ : Type} {R : (op : S'.Op) → σ → S'.Resp op → σ → Prop}
    {f : (op : S.Op) → Prog S' (S.Resp op)} {p : Prog S α} {tr : List (Event S')} {a : α}
    {s s' : σ} (h : Path (p.subst f) tr (.ret a)) (hR : Replay R s tr s') :
    ∃ tr', Path p tr' (.ret a) ∧ Replay (Whole R f) s tr' s' := by
  induction p generalizing tr s with
  | ret b =>
    rcases h.of_ret with ⟨rfl, hb⟩
    cases hb
    cases hR
    exact ⟨[], .refl _, .nil _⟩
  | call op k ih =>
    -- the operation is a stretch of the trace, from its start to its answer
    rcases Path.of_bind h with ⟨tr₁, tr₂, r, rfl, h1, h2⟩
    rcases hR.split with ⟨s₁, hR1, hR2⟩
    rcases ih r h2 hR2 with ⟨tr', hp, hw⟩
    exact ⟨⟨op, r⟩ :: tr', .step r hp, .cons ⟨tr₁, h1, hR1⟩ hw⟩

/-- A triple against a state machine: if every guaranteed operation keeps the
invariant and answers as relied on, a finished run keeps the invariant and
returns a value that satisfies the postcondition. -/
theorem Triple.replay {σ : Type} {R : (op : S.Op) → σ → S.Resp op → σ → Prop}
    {A : (op : S.Op) → S.Resp op → Prop} {G : S.Op → Prop} {I : σ → Prop}
    (hR : ∀ op s r s', G op → I s → R op s r s' → A op r ∧ I s')
    {p : Prog S α} {Q : α → Prop} (hp : p.Triple A G Q) {tr : List (Event S)} {a : α} {s s' : σ}
    (h : Path p tr (.ret a)) (hr : Replay R s tr s') (hs : I s) : Q a ∧ I s' := by
  induction p generalizing tr s with
  | ret b =>
    rcases h.of_ret with ⟨rfl, hb⟩
    cases hb
    cases hr
    exact ⟨hp, hs⟩
  | call op k ih =>
    cases h with
    | step r h =>
      cases hr with
      | cons hr1 hr2 =>
        -- as long as the invariant holds, the answers are those that are relied on
        rcases hR op s r _ hp.1 hs hr1 with ⟨hA, hI⟩
        exact ih r (hp.2 r hA) h hr2 hI

end Prog

/-! ## Next to other operations -/

/-- The operations of both. -/
abbrev Sig.sum (S T : Sig) : Sig where
  Op := S.Op ⊕ T.Op
  Resp := Sum.elim S.Resp T.Resp

section Sum

variable {S T : Sig} {α : Type}

/-- The same event among the operations of both. -/
def Event.left (ev : Event S) : Event (S.sum T) := ⟨.inl ev.op, ev.resp⟩

namespace Prog

/-- A program that leaves the operations on the right alone. -/
def left : Prog S α → Prog (S.sum T) α
  | .ret a => .ret a
  | .call op k => .call (S := S.sum T) (.inl op) fun r => (k r).left

/-- A sequence on the left is one of parts on the left. -/
theorem left_bind {β : Type} (p : Prog S α) (f : α → Prog S β) :
    (p >>= f).left (T := T) = p.left >>= fun a => (f a).left := by
  induction p with
  | ret a => rfl
  | call op k ih => exact congrArg (Prog.call (S := S.sum T) (.inl op)) (funext ih)

/-- Its paths are those of the program, on the left. -/
theorem Path.left {p q : Prog S α} {tr : List (Event S)} (h : Path p tr q) :
    Path (p.left (T := T)) (tr.map Event.left) q.left := by
  induction h with
  | refl p => exact .refl _
  | @step op k r _ _ _ ih => exact @Path.step (S.sum T) _ (.inl op) (fun r => (k r).left) r _ _ ih

/-- And it has no others. -/
theorem Path.of_left {p : Prog S α} {tr : List (Event (S.sum T))} {q : Prog (S.sum T) α}
    (h : Path p.left tr q) :
    ∃ tr' q', Path p tr' q' ∧ tr = tr'.map Event.left ∧ q = q'.left := by
  induction p generalizing tr with
  | ret a =>
    rcases h.of_ret with ⟨rfl, rfl⟩
    exact ⟨[], .ret a, .refl _, rfl, rfl⟩
  | call op k ih =>
    cases h with
    | refl => exact ⟨[], .call op k, .refl _, rfl, rfl⟩
    | step r h =>
      rcases ih r h with ⟨tr', q', hp, rfl, rfl⟩
      exact ⟨⟨op, r⟩ :: tr', q', @Path.step S _ op k r _ _ hp, rfl, rfl⟩

end Prog

end Sum

/-! ## Programs that can fail -/

/-- A program that ends in an `α` or stops with an error. -/
abbrev Fallible (S : Sig) (ε α : Type) : Type := ExceptT ε (Prog S) α

namespace Fallible

variable {S : Sig} {ε α β : Type}

/-- What comes after a fallible step: the rest on success, nothing on error. -/
def andThen (f : α → Fallible S ε β) : Except ε α → Prog S (Except ε β)
  | .ok a => (f a).run
  | .error e => .ret (.error e)

theorem run_bind (x : Fallible S ε α) (f : α → Fallible S ε β) :
    (x >>= f).run = x.run >>= andThen f := by
  change x.run >>= ExceptT.bindCont f = _
  refine congrArg (x.run >>= ·) (funext fun r => ?_)
  cases r <;> rfl

/-- Against a table of answers, a fallible sequence is the sequence of
results. -/
@[simp] theorem eval_bind (h : (op : S.Op) → S.Resp op) (x : Fallible S ε α)
    (f : α → Fallible S ε β) :
    (x >>= f).run.eval h = x.run.eval h >>= fun a => (f a).run.eval h := by
  rw [run_bind, Prog.eval_bind]
  cases x.run.eval h <;> rfl

/-- A sequence that succeeds does so in both parts. -/
theorem path_ok {x : Fallible S ε α} {f : α → Fallible S ε β} {tr : List (Event S)} {b : β}
    (h : Prog.Path (x >>= f).run tr (.ret (.ok b))) :
    ∃ tr₁ tr₂ a, tr = tr₁ ++ tr₂ ∧ Prog.Path x.run tr₁ (.ret (.ok a)) ∧
      Prog.Path (f a).run tr₂ (.ret (.ok b)) := by
  rw [run_bind] at h
  rcases Prog.Path.of_bind h with ⟨tr₁, tr₂, res, rfl, h₁, h₂⟩
  cases res with
  | ok a => exact ⟨tr₁, tr₂, a, rfl, h₁, h₂⟩
  | error e => cases h₂.of_ret.2

/-- When the first part fails, that is the end of the sequence. -/
theorem path_error {x : Fallible S ε α} {f : α → Fallible S ε β} {tr post : List (Event S)}
    {e : ε} {res : Except ε β} (hx : Prog.Path x.run tr (.ret (.error e)))
    (h : Prog.Path (x >>= f).run (tr ++ post) (.ret res)) : post = [] ∧ res = .error e := by
  rw [run_bind] at h
  -- the sequence may end right there, and the answers leave no other way
  have hends : Prog.Path (x.run >>= andThen f) (tr ++ []) (.ret (.error e)) := hx.bind (.refl _)
  rw [List.append_nil] at hends
  rcases (hends.cancel h).of_ret with ⟨rfl, hret⟩
  cases hret
  exact ⟨rfl, rfl⟩

/-- A function on the result of a fallible program. -/
theorem run_map (f : α → β) (x : Fallible S ε α) :
    (f <$> x).run = x.run >>= fun r => .ret (r.map f) := by
  rw [map_eq_pure_bind, run_bind]
  refine congrArg (x.run >>= ·) (funext fun r => ?_)
  cases r <;> rfl

theorem only_bind {G : S.Op → Prop} {x : Fallible S ε α} {f : α → Fallible S ε β}
    (hx : x.run.Only G) (hf : ∀ a, (f a).run.Only G) : (x >>= f).run.Only G := by
  rw [run_bind]
  refine hx.bind fun r => ?_
  cases r with
  | ok a => exact hf a
  | error e => trivial

section Triple

variable {A : (op : S.Op) → S.Resp op → Prop} {G : S.Op → Prop}

/-- The rule of sequencing; an error goes through to the end. -/
theorem triple_bind {x : Fallible S ε α} {f : α → Fallible S ε β} {P : Except ε α → Prop}
    {Q : Except ε β → Prop} (hx : x.run.Triple A G P)
    (hok : ∀ a, P (.ok a) → (f a).run.Triple A G Q) (herror : ∀ e, P (.error e) → Q (.error e)) :
    (x >>= f).run.Triple A G Q := by
  rw [run_bind]
  apply hx.bind
  intro res hres
  cases res with
  | ok a => exact hok a hres
  | error e => exact herror e hres

/-- If each part returns what it returns against the table `h`, so does the
sequence. -/
theorem triple_eval_bind {h : (op : S.Op) → S.Resp op} {x : Fallible S ε α}
    {f : α → Fallible S ε β} (hx : x.run.Triple A G fun res => res = x.run.eval h)
    (hf : ∀ a, (f a).run.Triple A G fun res => res = (f a).run.eval h) :
    (x >>= f).run.Triple A G fun res => res = (x >>= f).run.eval h := by
  rw [eval_bind]
  refine triple_bind hx (fun a ha => ?_) fun e he => ?_
  · rw [← ha]
    exact hf a
  · rw [← he]
    rfl

/-- What is promised of a success; nothing is of an error. -/
def OnOk (P : α → Prop) : Except ε α → Prop
  | .ok a => P a
  | .error _ => True

/-- The same when only successes are promised anything. -/
theorem triple_ok_bind {x : Fallible S ε α} {f : α → Fallible S ε β} {P : α → Prop}
    {Q : β → Prop} (hx : x.run.Triple A G (OnOk P))
    (hf : ∀ a, P a → (f a).run.Triple A G (OnOk Q)) : (x >>= f).run.Triple A G (OnOk Q) :=
  triple_bind hx hf fun _ _ => trivial

theorem triple_ok_weaken {x : Fallible S ε α} {P Q : α → Prop}
    (hx : x.run.Triple A G (OnOk P)) (hPQ : ∀ a, P a → Q a) : x.run.Triple A G (OnOk Q) := by
  apply hx.weaken
  intro res hres
  cases res with
  | ok a => exact hPQ a hres
  | error e => trivial

end Triple

/-! ### Stopping at the first failure -/

/-- `bad op r` is the error that the answer `r` stands for, if it is one. The
program returns that error at once and does nothing further. -/
def StopsAt (bad : (op : S.Op) → S.Resp op → Option ε) : Prog S (Except ε α) → Prop
  | .ret _ => True
  | .call op k =>
    ∀ r, (∀ e, bad op r = some e → k r = .ret (.error e)) ∧ StopsAt bad (k r)

variable {bad : (op : S.Op) → S.Resp op → Option ε}

/-- A sequence stops in whichever part the bad answer comes. -/
theorem StopsAt.bind {x : Fallible S ε α} {f : α → Fallible S ε β}
    (hx : StopsAt bad x.run) (hf : ∀ a, StopsAt bad (f a).run) : StopsAt bad (x >>= f).run := by
  rw [run_bind]
  generalize x.run = p at hx
  induction p with
  | ret r =>
    cases r with
    | ok a => exact hf a
    | error e => trivial
  | call op k ih =>
    intro r
    rcases hx r with ⟨h1, h2⟩
    refine ⟨fun e he => ?_, ih r h2⟩
    change (k r >>= andThen f) = _
    rw [h1 e he]
    rfl

/-- A bad answer is the last thing that happens on a finished path. -/
theorem StopsAt.path {p : Prog S (Except ε α)} (hp : StopsAt bad p) {pre post : List (Event S)}
    {ev : Event S} {res : Except ε α} (h : Prog.Path p (pre ++ ev :: post) (.ret res))
    {e : ε} (he : bad ev.op ev.resp = some e) : post = [] ∧ res = .error e := by
  induction p generalizing pre with
  | ret r =>
    have := h.of_ret.1
    simp at this
  | call op k ih =>
    cases pre with
    | nil =>
      cases h with
      | step r h =>
        rw [(hp r).1 e he] at h
        rcases h.of_ret with ⟨rfl, hr⟩
        cases hr
        exact ⟨rfl, rfl⟩
    | cons ev' pre =>
      cases h with
      | step r h => exact ih r (hp r).2 h

/-- After an operation of `W` the program returns successfully at once. -/
def EndsWith (W : S.Op → Prop) : Prog S (Except ε α) → Prop
  | .ret _ => True
  | .call op k => ∀ r, (W op → ∃ a, k r = .ret (.ok a)) ∧ EndsWith W (k r)

variable {W : S.Op → Prop}

/-- The first part performs nothing of `W`, and the second ends with it. -/
theorem EndsWith.bind {x : Fallible S ε α} {f : α → Fallible S ε β}
    (hx : x.run.Only fun op => ¬ W op) (hf : ∀ a, EndsWith W (f a).run) :
    EndsWith W (x >>= f).run := by
  rw [run_bind]
  generalize x.run = p at hx
  induction p with
  | ret r =>
    cases r with
    | ok a => exact hf a
    | error e => trivial
  | call op k ih => exact fun r => ⟨fun hW => absurd hW hx.1, ih r (hx.2 r)⟩

/-- A function on the result keeps the end where it is. -/
theorem EndsWith.map {x : Fallible S ε α} (f : α → β) (hx : EndsWith W x.run) :
    EndsWith W (f <$> x).run := by
  rw [run_map]
  generalize x.run = p at hx
  induction p with
  | ret r => trivial
  | call op k ih =>
    intro r
    rcases hx r with ⟨h1, h2⟩
    refine ⟨fun hW => ?_, ih r h2⟩
    rcases h1 hW with ⟨a, ha⟩
    refine ⟨f a, ?_⟩
    change (k r >>= fun r => Prog.ret (r.map f)) = _
    rw [ha]
    rfl

/-- An operation of `W` on a finished path comes last and the result is a
success. -/
theorem EndsWith.path {p : Prog S (Except ε α)} (hp : EndsWith W p) {pre post : List (Event S)}
    {ev : Event S} {res : Except ε α} (h : Prog.Path p (pre ++ ev :: post) (.ret res))
    (hev : W ev.op) : post = [] ∧ ∃ a, res = .ok a := by
  induction p generalizing pre with
  | ret r =>
    have := h.of_ret.1
    simp at this
  | call op k ih =>
    cases pre with
    | nil =>
      cases h with
      | step r h =>
        rcases (hp r).1 hev with ⟨a, ha⟩
        rw [ha] at h
        rcases h.of_ret with ⟨rfl, hr⟩
        cases hr
        exact ⟨rfl, a, rfl⟩
    | cons ev' pre =>
      cases h with
      | step r h => exact ih r (hp r).2 h

/-! ### How a program fails -/

/-- Every run of the program that ends in an error satisfies `F`, a property of
the trace and the error. -/
def FailsBy (F : List (Event S) → ε → Prop) (p : Prog S (Except ε α)) : Prop :=
  ∀ tr e, Prog.Path p tr (.ret (.error e)) → F tr e

theorem FailsBy.mono {F F' : List (Event S) → ε → Prop} (hF : ∀ tr e, F tr e → F' tr e)
    {p : Prog S (Except ε α)} (hp : FailsBy F p) : FailsBy F' p :=
  fun tr e h => hF tr e (hp tr e h)

/-- What succeeds at once does not fail. -/
theorem FailsBy.of_pure {F : List (Event S) → ε → Prop} (a : α) :
    FailsBy F (pure a : Fallible S ε α).run := by
  intro tr e h
  have hret := h.of_ret.2
  cases hret

/-- What fails at once has performed nothing. -/
theorem FailsBy.of_throw {F : List (Event S) → ε → Prop} {e : ε} (he : F [] e) :
    FailsBy F (throw e : Fallible S ε α).run := by
  intro tr e' h
  rcases h.of_ret with ⟨rfl, hret⟩
  cases hret
  exact he

/-- A sequence fails in its first part, or in its second after the first part
has run. -/
theorem FailsBy.bind {F : List (Event S) → ε → Prop} {x : Fallible S ε α}
    {f : α → Fallible S ε β} (hx : FailsBy F x.run)
    (hf : ∀ tr a, Prog.Path x.run tr (.ret (.ok a)) →
      FailsBy (fun tr' e => F (tr ++ tr') e) (f a).run) : FailsBy F (x >>= f).run := by
  intro tr e h
  rw [run_bind] at h
  rcases Prog.Path.of_bind h with ⟨tr₁, tr₂, res, rfl, h₁, h₂⟩
  cases res with
  | ok a => exact hf tr₁ a h₁ tr₂ e h₂
  | error e' =>
    rcases h₂.of_ret with ⟨rfl, hret⟩
    cases hret
    rw [List.append_nil]
    exact hx tr₁ e h₁

/-- The last event of the trace is a bad answer, and the error is what it
stands for. -/
def FailedAt (bad : (op : S.Op) → S.Resp op → Option ε) (tr : List (Event S)) (e : ε) : Prop :=
  ∃ pre ev, tr = pre ++ [ev] ∧ bad ev.op ev.resp = some e

/-- What was performed before does not matter. -/
theorem FailedAt.append {tr : List (Event S)} {e : ε} (h : FailedAt bad tr e)
    (pre : List (Event S)) : FailedAt bad (pre ++ tr) e := by
  rcases h with ⟨pre', ev, rfl, hev⟩
  exact ⟨pre ++ pre', ev, (List.append_assoc _ _ _).symm, hev⟩

end Fallible

end Interact
