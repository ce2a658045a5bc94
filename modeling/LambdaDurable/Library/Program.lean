import Mathlib.Logic.Function.Basic

/-!
# Programs as trees of effects, and a logic for them

A program either returns or performs an effect and continues with the answer the
environment gives. A monitor carries a ghost state along the effects: it says which
answers the environment may give, which effects the program may perform, and how
the ghost state moves. `Meets` is the weakest precondition of a monitor; it composes
along `bind`, and whatever it promises holds of every partial execution.
-/

namespace Effects

universe u v w x y

inductive Prog (E : Type u) (A : E → Type v) (α : Type w)
  | ret (a : α)
  | act (e : E) (k : A e → Prog E A α)

namespace Prog

variable {E : Type u} {A : E → Type v} {α β : Type w} {δ : Type w}

protected def bind : Prog E A α → (α → Prog E A β) → Prog E A β
  | .ret a, f => f a
  | .act e k, f => .act e fun a => (k a).bind f

instance : Monad (Prog E A) where
  pure := .ret
  bind := Prog.bind

/-- Perform one effect and return its answer. -/
def perform {A : E → Type w} (e : E) : Prog E A (A e) := .act e .ret

/-- The effect the program performs next. -/
def next : Prog E A α → Option E
  | .ret _ => none
  | .act e _ => some e

/-- What the program has returned. -/
def returned : Prog E A α → Option α
  | .ret a => some a
  | .act _ _ => none

theorem eq_ret_of_returned {p : Prog E A α} {a : α} (h : p.returned = some a) : p = .ret a := by
  cases p with
  | ret b => exact congrArg Prog.ret (Option.some.inj h)
  | act e k => cases h

@[simp] theorem pure_eq (a : α) : (pure a : Prog E A α) = .ret a := rfl

@[simp] theorem ret_bind (a : α) (f : α → Prog E A β) : (Prog.ret a >>= f) = f a := rfl

@[simp] theorem act_bind (e : E) (k : A e → Prog E A α) (f : α → Prog E A β) :
    (Prog.act e k >>= f) = .act e fun a => k a >>= f := rfl

@[simp] theorem perform_bind {A : E → Type w} {β : Type w} (e : E) (f : A e → Prog E A β) :
    (perform e >>= f) = .act e f := rfl

/-- The `?` operator: go on with a value, return an error. -/
def andThen {ε : Type w} {α β : Type w} (p : Prog E A (Except ε α)) (f : α → Prog E A (Except ε β)) :
    Prog E A (Except ε β) :=
  p >>= fun
    | .ok a => f a
    | .error e => .ret (.error e)

@[simp] theorem ret_ok_andThen {ε α β : Type w} (a : α) (f : α → Prog E A (Except ε β)) :
    andThen (.ret (.ok a)) f = f a := rfl

@[simp] theorem ret_error_andThen {ε α β : Type w} (e : ε) (f : α → Prog E A (Except ε β)) :
    andThen (.ret (.error e)) f = .ret (.error e) := rfl

@[simp] theorem act_andThen {ε α β : Type w} (e : E) (k : A e → Prog E A (Except ε α))
    (f : α → Prog E A (Except ε β)) :
    andThen (.act e k) f = .act e fun a => andThen (k a) f := rfl

theorem andThen_assoc {ε α β δ : Type w} (p : Prog E A (Except ε α))
    (f : α → Prog E A (Except ε β)) (g : β → Prog E A (Except ε δ)) :
    (p.andThen f).andThen g = p.andThen fun a => (f a).andThen g := by
  induction p with
  | ret r => cases r <;> rfl
  | act e k ih => exact congrArg (Prog.act e) (funext ih)

theorem bind_assoc (p : Prog E A α) (f : α → Prog E A β) (g : β → Prog E A δ) :
    ((p >>= f) >>= g) = (p >>= fun a => f a >>= g) := by
  induction p with
  | ret a => rfl
  | act e k ih => exact congrArg (Prog.act e) (funext ih)

end Prog

structure Monitor (E : Type u) (A : E → Type v) (γ : Type x) where
  answers : γ → (e : E) → A e → Prop
  allows : γ → E → Prop
  after : γ → (e : E) → A e → γ

namespace Prog

variable {E : Type u} {A : E → Type v} {α β : Type w} {γ : Type x}

def Meets (M : Monitor E A γ) (post : γ → α → Prop) : γ → Prog E A α → Prop
  | g, .ret a => post g a
  | g, .act e k => M.allows g e ∧ ∀ a, M.answers g e a → (k a).Meets M post (M.after g e a)

variable {M : Monitor E A γ} {post : γ → α → Prop}

@[simp] theorem meets_ret (g : γ) (a : α) : (Prog.ret a : Prog E A α).Meets M post g ↔ post g a :=
  Iff.rfl

@[simp] theorem meets_act (g : γ) (e : E) (k : A e → Prog E A α) :
    (Prog.act e k).Meets M post g ↔
      M.allows g e ∧ ∀ a, M.answers g e a → (k a).Meets M post (M.after g e a) :=
  Iff.rfl

theorem meets_bind {post : γ → β → Prop} (g : γ) (p : Prog E A α) (f : α → Prog E A β) :
    (p >>= f).Meets M post g ↔ p.Meets M (fun g a => (f a).Meets M post g) g := by
  induction p generalizing g with
  | ret a => rfl
  | act e k ih =>
    simp only [act_bind, meets_act]
    exact and_congr_right fun _ => forall_congr' fun a => imp_congr_right fun _ => ih a _

theorem Meets.mono {post' : γ → α → Prop} (hpost : ∀ g a, post g a → post' g a) {g : γ}
    {p : Prog E A α} (h : p.Meets M post g) : p.Meets M post' g := by
  induction p generalizing g with
  | ret a => exact hpost _ _ h
  | act e k ih => exact ⟨h.1, fun a ha => ih a (h.2 a ha)⟩

theorem Meets.bind {post : γ → β → Prop} {m : γ → α → Prop} {g : γ} {p : Prog E A α}
    {f : α → Prog E A β} (h : p.Meets M m g) (hf : ∀ a g, m g a → (f a).Meets M post g) :
    (p >>= f).Meets M post g :=
  (meets_bind g p f).mpr (Meets.mono (fun g a ha => hf a g ha) h)

/-- The rule of the `?` operator: an error is the result. -/
theorem Meets.andThen {ε α β : Type w} {m : γ → Except ε α → Prop} {post : γ → Except ε β → Prop}
    {g : γ} {p : Prog E A (Except ε α)} {f : α → Prog E A (Except ε β)} (h : p.Meets M m g)
    (hok : ∀ a g, m g (.ok a) → (f a).Meets M post g)
    (herror : ∀ e g, m g (.error e) → post g (.error e)) : (p.andThen f).Meets M post g := by
  refine Meets.bind h fun r g hr => ?_
  cases r with
  | ok a => exact hok a g hr
  | error e => exact herror e g hr

/-- Two monitors that move alike and admit the same answers. -/
theorem Meets.and {M' : Monitor E A γ} {post' : γ → α → Prop} {g : γ} {p : Prog E A α}
    (h : p.Meets M post g) (h' : p.Meets M' post' g)
    (hanswers : ∀ g e a, M.answers g e a → M'.answers g e a) (hafter : M'.after = M.after) :
    p.Meets { M with allows := fun g e => M.allows g e ∧ M'.allows g e }
      (fun g a => post g a ∧ post' g a) g := by
  induction p generalizing g with
  | ret a => exact ⟨h, h'⟩
  | act e k ih =>
    refine ⟨⟨h.1, h'.1⟩, fun a ha => ih a (h.2 a ha) ?_⟩
    have hrest := h'.2 a (hanswers g e a ha)
    rwa [hafter] at hrest

/-- Whatever the answers, the program performs only such effects. -/
def Only (allowed : E → Prop) : Prog E A α → Prop
  | .ret _ => True
  | .act e k => allowed e ∧ ∀ a, (k a).Only allowed

section

variable {allowed : E → Prop}

@[simp] theorem only_ret (a : α) : (Prog.ret a : Prog E A α).Only allowed := trivial

@[simp] theorem only_act (e : E) (k : A e → Prog E A α) :
    (Prog.act e k).Only allowed ↔ allowed e ∧ ∀ a, (k a).Only allowed :=
  Iff.rfl

theorem Only.mono {allowed' : E → Prop} (hsub : ∀ e, allowed e → allowed' e) {p : Prog E A α}
    (h : p.Only allowed) : p.Only allowed' := by
  induction p with
  | ret a => trivial
  | act e k ih => exact ⟨hsub e h.1, fun a => ih a (h.2 a)⟩

theorem only_bind {p : Prog E A α} {f : α → Prog E A β} (hp : p.Only allowed)
    (hf : ∀ a, (f a).Only allowed) : (p >>= f).Only allowed := by
  induction p with
  | ret a => exact hf a
  | act e k ih => exact ⟨hp.1, fun a => ih a (hp.2 a)⟩

theorem only_andThen {ε α β : Type w} {p : Prog E A (Except ε α)}
    {f : α → Prog E A (Except ε β)} (hp : p.Only allowed) (hf : ∀ a, (f a).Only allowed) :
    (p.andThen f).Only allowed := by
  refine only_bind hp fun r => ?_
  cases r with
  | ok a => exact hf a
  | error e => trivial

theorem Only.meets {R : γ → Prop} {p : Prog E A α} (h : p.Only allowed)
    (hallows : ∀ g e, R g → allowed e → M.allows g e)
    (hafter : ∀ g e a, R g → allowed e → M.answers g e a → R (M.after g e a)) {g : γ} (hg : R g) :
    p.Meets M (fun g _ => R g) g := by
  induction p generalizing g with
  | ret a => exact hg
  | act e k ih =>
    exact ⟨hallows g e hg h.1, fun a ha => ih a (h.2 a) (hafter g e a hg h.1 ha)⟩

end

/-- While the answers are admitted, the program performs only such effects. -/
def OnlyIf (admits : (e : E) → A e → Prop) (allowed : E → Prop) : Prog E A α → Prop
  | .ret _ => True
  | .act e k => allowed e ∧ ∀ a, admits e a → (k a).OnlyIf admits allowed

section

variable {admits : (e : E) → A e → Prop} {allowed : E → Prop}

theorem onlyIf_bind {p : Prog E A α} {f : α → Prog E A β} (hp : p.OnlyIf admits allowed)
    (hf : ∀ a, (f a).OnlyIf admits allowed) : (p >>= f).OnlyIf admits allowed := by
  induction p with
  | ret a => exact hf a
  | act e k ih => exact ⟨hp.1, fun a ha => ih a (hp.2 a ha)⟩

theorem onlyIf_andThen {ε α β : Type w} {p : Prog E A (Except ε α)}
    {f : α → Prog E A (Except ε β)} (hp : p.OnlyIf admits allowed)
    (hf : ∀ a, (f a).OnlyIf admits allowed) : (p.andThen f).OnlyIf admits allowed := by
  refine onlyIf_bind hp fun r => ?_
  cases r with
  | ok a => exact hf a
  | error e => trivial

theorem OnlyIf.meets {p : Prog E A α} (h : p.OnlyIf admits allowed)
    (hallows : ∀ g e, allowed e → M.allows g e) (hadmits : ∀ g e a, M.answers g e a → admits e a)
    (g : γ) : p.Meets M (fun _ _ => True) g := by
  induction p generalizing g with
  | ret a => trivial
  | act e k ih => exact ⟨hallows g e h.1, fun a ha => ih a (h.2 a (hadmits g e a ha)) _⟩

end

/-- One answered effect. -/
inductive Step (M : Monitor E A γ) : γ → Prog E A α → γ → Prog E A α → Prop
  | act {g : γ} {e : E} {k : A e → Prog E A α} {a : A e} :
      M.answers g e a → Step M g (.act e k) (M.after g e a) (k a)

/-- Partial executions: any number of answered effects. -/
inductive Exec (M : Monitor E A γ) : γ → Prog E A α → γ → Prog E A α → Prop
  | refl (g : γ) (p : Prog E A α) : Exec M g p g p
  | tail {g g' g'' : γ} {p p' p'' : Prog E A α} :
      Exec M g p g' p' → Step M g' p' g'' p'' → Exec M g p g'' p''

theorem Meets.step {g g' : γ} {p p' : Prog E A α} (h : p.Meets M post g) (hs : Step M g p g' p') :
    p'.Meets M post g' := by
  cases hs with
  | act ha => exact h.2 _ ha

theorem Meets.exec {g g' : γ} {p p' : Prog E A α} (h : p.Meets M post g)
    (he : Exec M g p g' p') : p'.Meets M post g' := by
  induction he with
  | refl => exact h
  | tail _ hs ih => exact Meets.step (ih h) hs

theorem Meets.returns {g g' : γ} {p : Prog E A α} {a : α} (h : p.Meets M post g)
    (he : Exec M g p g' (.ret a)) : post g' a :=
  Meets.exec h he

theorem Meets.performs {g g' : γ} {p : Prog E A α} {e : E} {k : A e → Prog E A α}
    (h : p.Meets M post g) (he : Exec M g p g' (.act e k)) : M.allows g' e :=
  (Meets.exec h he).1

end Prog

end Effects
