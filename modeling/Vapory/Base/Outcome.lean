import Vapory.Base.Prog

/-! What a program with exceptions ends with in an environment that keeps to some answers: one rule
for each way to build a program, for the results and the exceptions alike. -/
namespace Vapory
namespace Prog
variable {Q : Type} {A : Q → Type} {α β : Type}

/-- Answers that `Ans` admits make the program return what satisfies `P`. -/
def Leads (Ans : (q : Q) → A q → Prop) (P : α → Prop) : Prog Q A α → Prop
  | .pure a => P a
  | .ask q k => ∀ r, Ans q r → (k r).Leads Ans P

variable {Ans Ans' : (q : Q) → A q → Prop} {P P' : α → Prop} {p : Prog Q A α}

theorem Leads.mono (hp : p.Leads Ans P) (h : ∀ a, P a → P' a) : p.Leads Ans P' := by
  induction p with
  | pure a => exact h a hp
  | ask q k ih => exact fun r hr => ih r (hp r hr)

theorem leads_bind {f : α → Prog Q A β} {P : β → Prop} :
    (p >>= f).Leads Ans P ↔ p.Leads Ans fun a => (f a).Leads Ans P := by
  induction p with
  | pure a => exact .rfl
  | ask q k ih => exact forall_congr' fun r => imp_congr_right fun _ => ih r

end Prog

namespace ProgT
variable {Q : Type} {A : Q → Type} {ε σ α β : Type} (Ans : (q : Q) → A q → Prop)

/-- From the state `s` on, `m` ends in one of the ways `R`. -/
def Outcome (m : ProgT Q A ε σ α) (s : σ) (R : Except ε α → σ → Prop) : Prop :=
  (m.runFrom s).Leads Ans fun r => R r.1 r.2

def andThen (f : α → ProgT Q A ε σ β) (R : Except ε β → σ → Prop) : Except ε α → σ → Prop
  | .ok a, s => Outcome Ans (f a) s R
  | .error e, s => R (.error e) s

variable {Ans} {m : ProgT Q A ε σ α} {f : α → ProgT Q A ε σ β} {s : σ}
  {R R' : Except ε α → σ → Prop} {S : Except ε β → σ → Prop}

theorem Outcome.mono (h : Outcome Ans m s R) (hR : ∀ r s', R r s' → R' r s') : Outcome Ans m s R' :=
  Prog.Leads.mono h fun _ => hR _ _

@[simp] theorem andThen_ok (a : α) : andThen Ans f S (.ok a) s ↔ Outcome Ans (f a) s S := .rfl

@[simp] theorem andThen_error (e : ε) : andThen Ans f S (.error e) s ↔ S (.error e) s := .rfl

@[simp] theorem outcome_pure (a : α) : Outcome Ans (pure a : ProgT Q A ε σ α) s R ↔ R (.ok a) s :=
  .rfl

@[simp] theorem outcome_throw (e : ε) : Outcome Ans (throw e : ProgT Q A ε σ α) s R ↔
    R (.error e) s := .rfl

@[simp] theorem outcome_get {R : Except ε σ → σ → Prop} :
    Outcome Ans (get : ProgT Q A ε σ σ) s R ↔ R (.ok s) s := .rfl

@[simp] theorem outcome_modify {R : Except ε PUnit → σ → Prop} (g : σ → σ) :
    Outcome Ans (modify g : ProgT Q A ε σ PUnit) s R ↔ R (.ok ⟨⟩) (g s) := .rfl

@[simp] theorem outcome_bind : Outcome Ans (m >>= f) s S ↔ Outcome Ans m s (andThen Ans f S) := by
  unfold Outcome
  rw [runFrom_bind, Prog.leads_bind]
  have hnext (r : Except ε α × σ) : ((next f r).Leads Ans fun r => S r.1 r.2) ↔
    andThen Ans f S r.1 r.2 := by
    obtain ⟨r, s'⟩ := r
    cases r <;> exact .rfl
  simp only [hnext]

@[simp] theorem outcome_ite {c : Prop} [Decidable c] {x y : ProgT Q A ε σ α} :
    Outcome Ans (if c then x else y) s R ↔ if c then Outcome Ans x s R else Outcome Ans y s R := by
  split_ifs <;> exact .rfl

end ProgT
end Vapory
