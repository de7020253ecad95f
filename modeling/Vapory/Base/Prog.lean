import Mathlib.Tactic.Common

/-! Programs that ask questions of an environment: a tree of questions, with one branch
for each answer. Two programs are equal if they ask the same questions in the same order
and return the same, whatever the environment answers. -/
namespace Vapory

/-- A program that asks questions `q : Q` with answers in `A q` and returns in `α`. -/
inductive Prog (Q : Type) (A : Q → Type) (α : Type) : Type where
  | pure (a : α)
  | ask (q : Q) (k : A q → Prog Q A α)

namespace Prog
variable {Q : Type} {A : Q → Type} {α β γ : Type}

def bind : Prog Q A α → (α → Prog Q A β) → Prog Q A β
  | .pure a, f => f a
  | .ask q k, f => .ask q fun a => (k a).bind f

instance : Monad (Prog Q A) where
  pure := .pure
  bind := .bind

theorem bind_pure (p : Prog Q A α) : (p >>= Pure.pure) = p := by
  induction p with
  | pure a => rfl
  | ask q k ih => exact congrArg (Prog.ask q) (funext ih)

theorem bind_assoc (p : Prog Q A α) (f : α → Prog Q A β) (g : β → Prog Q A γ) :
    (p >>= f >>= g) = p >>= fun a => f a >>= g := by
  induction p with
  | pure a => rfl
  | ask q k ih => exact congrArg (Prog.ask q) (funext ih)

instance : LawfulMonad (Prog Q A) :=
  LawfulMonad.mk' (Prog Q A) bind_pure (fun _ _ => rfl) bind_assoc

/-- Some answers of the environment make the program return `a`. -/
inductive Returns : Prog Q A α → α → Prop where
  | pure (a : α) : Returns (.pure a) a
  | ask {q : Q} {k : A q → Prog Q A α} {a : α} (r : A q) (h : Returns (k r) a) : Returns (.ask q k) a

/-- Every question asked satisfies `Ok`, and what is returned satisfies `P`. -/
def Sat (Ok : Q → Prop) (P : α → Prop) : Prog Q A α → Prop
  | .pure a => P a
  | .ask q k => Ok q ∧ ∀ r, (k r).Sat Ok P

section Sat
variable {Ok : Q → Prop} {P P' : α → Prop} {R : β → Prop} {p : Prog Q A α} {f g : α → Prog Q A β}

theorem Sat.bind (hp : p.Sat Ok P) (hf : ∀ a, P a → (f a).Sat Ok R) : (p >>= f).Sat Ok R := by
  induction p with
  | pure a => exact hf a hp
  | ask q k ih => exact ⟨hp.1, fun r => ih r (hp.2 r)⟩

theorem Sat.mono (hp : p.Sat Ok P) (h : ∀ a, P a → P' a) : p.Sat Ok P' := by
  induction p with
  | pure a => exact h a hp
  | ask q k ih => exact ⟨hp.1, fun r => ih r (hp.2 r)⟩

theorem Sat.returns (hp : p.Sat Ok P) {a : α} (ha : Returns p a) : P a := by
  induction ha with
  | pure a => exact hp
  | ask r _ ih => exact ih (hp.2 r)

theorem sat_true (p : Prog Q A α) : p.Sat (fun _ => True) fun _ => True := by
  induction p with
  | pure a => exact trivial
  | ask q k ih => exact ⟨trivial, ih⟩

/-- Continuations need to agree only on what the first program can return. -/
theorem bind_congr (hp : p.Sat Ok P) (h : ∀ a, P a → f a = g a) : (p >>= f) = p >>= g := by
  induction p with
  | pure a => exact h a hp
  | ask q k ih => exact congrArg (Prog.ask q) (funext fun r => ih r (hp.2 r))

end Sat

/-- The program against an environment that answers in the monad `m`. -/
def interp {m : Type → Type} [Monad m] (h : (q : Q) → m (A q)) : Prog Q A α → m α
  | .pure a => Pure.pure a
  | .ask q k => do (k (← h q)).interp h

end Prog

/-- Programs with exceptions and a state; the state outlives an exception. -/
abbrev ProgT (Q : Type) (A : Q → Type) (ε σ : Type) := ExceptT ε (StateT σ (Prog Q A))

namespace ProgT
variable {Q : Type} {A : Q → Type} {ε σ α β : Type}

def ask (q : Q) : ProgT Q A ε σ (A q) := fun s => .ask q fun a => .pure (.ok a, s)

/-- The program `m` is from the state `s` on. -/
def runFrom (m : ProgT Q A ε σ α) (s : σ) : Prog Q A (Except ε α × σ) := m.run.run s

theorem runFrom_ite {c : Prop} [Decidable c] (x y : ProgT Q A ε σ α) (s : σ) :
    (if c then x else y).runFrom s = if c then x.runFrom s else y.runFrom s := by
  split_ifs <;> rfl

/-- What follows a first part that returned or threw. -/
def next (f : α → ProgT Q A ε σ β) : Except ε α × σ → Prog Q A (Except ε β × σ)
  | (.ok a, s) => (f a).runFrom s
  | (.error e, s) => pure (.error e, s)

theorem runFrom_bind (m : ProgT Q A ε σ α) (f : α → ProgT Q A ε σ β) (s : σ) :
    (m >>= f).runFrom s = m.runFrom s >>= next f := by
  unfold runFrom
  rw [ExceptT.run_bind, StateT.run_bind]
  congr 1
  funext ⟨r, s'⟩
  cases r <;> rfl

section Spec
variable (Ok : Q → Prop)

/-- What returned and what was thrown, for the sake of a condition on what returned. -/
def onOk (P : α → σ → Prop) : Except ε α × σ → Prop
  | (.ok a, s) => P a s
  | (.error _, _) => True

/-- From the state `s` on, `m` asks only what `Ok` allows and returns what satisfies `P`. -/
def Spec (m : ProgT Q A ε σ α) (s : σ) (P : α → σ → Prop) : Prop := (m.runFrom s).Sat Ok (onOk P)

variable {Ok} {m : ProgT Q A ε σ α} {f : α → ProgT Q A ε σ β} {s : σ} {P P' : α → σ → Prop}
  {R : β → σ → Prop}

theorem Spec.bind (hm : Spec Ok m s P) (hf : ∀ a s', P a s' → Spec Ok (f a) s' R) :
    Spec Ok (m >>= f) s R := by
  unfold Spec
  rw [runFrom_bind]
  refine Prog.Sat.bind hm ?_
  rintro ⟨r, s'⟩ hr
  cases r with
  | error e => exact trivial
  | ok a => exact hf a s' hr

theorem spec_true (m : ProgT Q A ε σ α) (s : σ) : Spec (fun _ => True) m s fun _ _ => True := by
  refine Prog.Sat.mono (Prog.sat_true _) ?_
  rintro ⟨r, s'⟩ -
  cases r <;> exact trivial

@[simp] theorem spec_pure (a : α) : Spec Ok (pure a : ProgT Q A ε σ α) s P ↔ P a s := .rfl

@[simp] theorem spec_throw (e : ε) : Spec Ok (throw e : ProgT Q A ε σ α) s P ↔ True := .rfl

@[simp] theorem spec_throw_bind (e : ε) : Spec Ok ((throw e : ProgT Q A ε σ α) >>= f) s R ↔ True :=
  .rfl

@[simp] theorem spec_get_bind {f : σ → ProgT Q A ε σ β} :
    Spec Ok ((get : ProgT Q A ε σ σ) >>= f) s R ↔ Spec Ok (f s) s R := .rfl

@[simp] theorem spec_modify {P : PUnit → σ → Prop} (g : σ → σ) :
    Spec Ok (modify g : ProgT Q A ε σ PUnit) s P ↔ P ⟨⟩ (g s) := .rfl

@[simp] theorem spec_modify_bind (g : σ → σ) {f : PUnit → ProgT Q A ε σ β} :
    Spec Ok ((modify g : ProgT Q A ε σ PUnit) >>= f) s R ↔ Spec Ok (f ⟨⟩) (g s) R := .rfl

@[simp] theorem spec_ask_bind (q : Q) {f : A q → ProgT Q A ε σ β} :
    Spec Ok ((ask q : ProgT Q A ε σ (A q)) >>= f) s R ↔ Ok q ∧ ∀ a, Spec Ok (f a) s R := .rfl

variable {x y : ProgT Q A ε σ α}

@[simp] theorem spec_ite {c : Prop} [Decidable c] :
    Spec Ok (if c then x else y) s P ↔ (c → Spec Ok x s P) ∧ (¬ c → Spec Ok y s P) := by
  by_cases h : c <;> simp [h]

@[simp] theorem spec_ite_bind {c : Prop} [Decidable c] :
    Spec Ok ((if c then x else y) >>= f) s R ↔ (c → Spec Ok (x >>= f) s R) ∧
    (¬ c → Spec Ok (y >>= f) s R) := by
  by_cases h : c <;> simp [h]

end Spec

/-- From the state `s` on, the two are one program, and what it returns satisfies `P`. -/
def Agree (m m' : ProgT Q A ε σ α) (s : σ) (P : α → σ → Prop) : Prop :=
  m.runFrom s = m'.runFrom s ∧ Spec (fun _ => True) m s P

namespace Agree
variable {m m' : ProgT Q A ε σ α} {f f' : α → ProgT Q A ε σ β} {s : σ} {P P' : α → σ → Prop}
  {R : β → σ → Prop}

theorem bind (hm : Agree m m' s P) (hf : ∀ a s', P a s' → Agree (f a) (f' a) s' R) :
    Agree (m >>= f) (m' >>= f') s R := by
  refine ⟨?_, hm.2.bind fun a s' h => (hf a s' h).2⟩
  rw [runFrom_bind, runFrom_bind, ← hm.1]
  refine Prog.bind_congr hm.2 ?_
  rintro ⟨r, s'⟩ hr
  cases r with
  | error e => rfl
  | ok a => exact (hf a s' hr).1

theorem of_spec (h : Spec (fun _ => True) m s P) : Agree m m s P := ⟨rfl, h⟩

theorem of_runFrom (h : m.runFrom s = m'.runFrom s) (hs : Spec (fun _ => True) m' s P) :
    Agree m m' s P := by
  refine ⟨h, ?_⟩
  unfold Spec
  rwa [h]

end Agree
end ProgT
end Vapory
