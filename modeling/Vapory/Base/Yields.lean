import Vapory.Base.Except

/-! What computations on a state that may fail return. The rules are equivalences, so that they
carry a property of the result back to the start, whether it is known there or at the end. -/
namespace Vapory
universe u
variable {ε σ α β : Type u}

/-- `m` started in `s` returns, and does so as `P` says. -/
def Yields (m : StateT σ (Except ε) α) (s : σ) (P : α → σ → Prop) : Prop :=
  ∃ a s', m.run s = .ok (a, s') ∧ P a s'

variable {m : StateT σ (Except ε) α} {f : α → StateT σ (Except ε) β} {s : σ} {P P' : α → σ → Prop}
  {Q : β → σ → Prop}

@[simp] theorem yields_pure (a : α) : Yields (pure a : StateT σ (Except ε) α) s P ↔ P a s := by
  constructor
  · rintro ⟨_, _, ⟨⟩, h⟩
    exact h
  · intro h
    exact ⟨a, s, rfl, h⟩

@[simp] theorem yields_throw (e : ε) : Yields (throw e : StateT σ (Except ε) α) s P ↔ False := by
  constructor
  · rintro ⟨_, _, ⟨⟩, -⟩
  · exact False.elim

@[simp] theorem yields_bind : Yields (m >>= f) s Q ↔ Yields m s fun a s' => Yields (f a) s' Q := by
  constructor
  · rintro ⟨b, s', h, hQ⟩
    rw [StateT.run_bind] at h
    obtain ⟨⟨a, s₁⟩, hm, hf⟩ := Except.bind_eq_ok.mp h
    exact ⟨a, s₁, hm, b, s', hf, hQ⟩
  · rintro ⟨a, s₁, hm, b, s', hf, hQ⟩
    refine ⟨b, s', ?_, hQ⟩
    rw [StateT.run_bind]
    exact Except.bind_eq_ok.mpr ⟨_, hm, hf⟩

@[simp] theorem yields_modify {P : PUnit → σ → Prop} (g : σ → σ) :
    Yields (modify g : StateT σ (Except ε) PUnit) s P ↔ P ⟨⟩ (g s) := by
  constructor
  · rintro ⟨_, _, ⟨⟩, h⟩
    exact h
  · intro h
    exact ⟨⟨⟩, g s, rfl, h⟩

@[simp] theorem yields_ite {c : Prop} [Decidable c] {m' : StateT σ (Except ε) α} :
    Yields (if c then m else m') s P ↔ if c then Yields m s P else Yields m' s P := by
  split_ifs <;> rfl

@[simp] theorem yields_lift {x : Except ε α} :
    Yields (liftM x : StateT σ (Except ε) α) s P ↔ ∃ a, x = .ok a ∧ P a s := by
  cases x with
  | error e =>
    constructor
    · rintro ⟨_, _, ⟨⟩, -⟩
    · rintro ⟨_, ⟨⟩, -⟩
  | ok a => exact (yields_pure a).trans (by simp)

@[simp] theorem yields_false : Yields m s (fun _ _ => False) ↔ False := by
  constructor
  · rintro ⟨_, _, -, h⟩
    exact h
  · exact False.elim

theorem Yields.mono (h : Yields m s P) (hP : ∀ a s', P a s' → P' a s') : Yields m s P' := by
  obtain ⟨a, s', hm, ha⟩ := h
  exact ⟨a, s', hm, hP a s' ha⟩

end Vapory
