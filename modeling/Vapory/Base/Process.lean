import Vapory.Base.Post
import Vapory.Base.Prog
import Vapory.Base.Yields

/-! Computations on a state that may end the process, or not end within so many steps. -/
namespace Vapory
universe u

inductive Stop where
  /-- The process ended. -/
  | exit
  /-- A bound on the number of steps was not enough. -/
  | steps
deriving DecidableEq

abbrev Process (σ : Type u) := StateT σ (Except Stop)

section
variable {ε σ α β : Type u}

instance : MonadLift (StateM σ) (Process σ) := ⟨fun m s => .ok (m.run s)⟩

def stop (r : Stop) : Process σ α := fun _ => .error r

/-- Nothing catches the exception, so it ends the process. -/
def uncaught (m : ExceptT ε (StateM σ) α) : Process σ α := fun s =>
  match m.run.run s with
  | (.ok a, s') => .ok (a, s')
  | (.error _, _) => .error .exit

/-- If `m` started in `s` ends, it ends as `P` says. -/
def Ends (m : Process σ α) (s : σ) (P : α → σ → Prop) : Prop :=
  ∀ a s', m.run s = .ok (a, s') → P a s'

variable {m : Process σ α} {f : α → Process σ β} {s : σ} {P P' : α → σ → Prop} {Q : β → σ → Prop}

@[simp] theorem ends_pure (a : α) : Ends (pure a : Process σ α) s P ↔ P a s := by
  constructor
  · intro h
    exact h a s rfl
  · rintro h _ _ ⟨⟩
    exact h

@[simp] theorem ends_stop (r : Stop) : Ends (stop r : Process σ α) s P ↔ True := by
  apply iff_true_intro
  intro a s' h
  cases h

@[simp] theorem ends_bind : Ends (m >>= f) s Q ↔ Ends m s fun a s' => Ends (f a) s' Q := by
  unfold Ends
  rw [StateT.run_bind]
  cases hm : m.run s with
  | error r => exact iff_of_true (fun _ _ h => by cases h) (by simp)
  | ok r =>
    obtain ⟨a, s₁⟩ := r
    constructor
    · rintro h _ _ ⟨⟩
      exact h
    · intro h
      exact h a s₁ rfl

@[simp] theorem ends_get {P : σ → σ → Prop} : Ends (get : Process σ σ) s P ↔ P s s := ends_pure s

@[simp] theorem ends_set {P : PUnit → σ → Prop} (s' : σ) :
    Ends (set s' : Process σ PUnit) s P ↔ P ⟨⟩ s' := by
  constructor
  · intro h
    exact h ⟨⟩ s' rfl
  · rintro h _ _ ⟨⟩
    exact h

@[simp] theorem ends_modify {P : PUnit → σ → Prop} (g : σ → σ) :
    Ends (modify g : Process σ PUnit) s P ↔ P ⟨⟩ (g s) := by
  constructor
  · intro h
    exact h ⟨⟩ (g s) rfl
  · rintro h _ _ ⟨⟩
    exact h

@[simp] theorem ends_ite {c : Prop} [Decidable c] {m' : Process σ α} :
    Ends (if c then m else m') s P ↔ if c then Ends m s P else Ends m' s P := by
  split_ifs <;> rfl

@[simp] theorem ends_lift {m : StateM σ α} : Ends (liftM m : Process σ α) s P ↔ Post m s P := by
  constructor
  · intro h
    exact h _ _ rfl
  · intro h a s' hr
    have hm : m.run s = (a, s') := Except.ok.inj hr
    rwa [Post, hm] at h

@[simp] theorem ends_uncaught {m : ExceptT ε (StateM σ) α} :
    Ends (uncaught m) s P ↔ PostE m s P fun _ => True := by
  unfold Ends PostE Post
  change (∀ a s', (match m.run.run s with
    | (.ok a, s') => Except.ok (a, s')
    | (.error _, _) => Except.error Stop.exit) = Except.ok (a, s') → P a s') ↔ _
  rcases m.run.run s with ⟨_ | a, s₁⟩
  · exact iff_of_true (by simp) trivial
  · simp

@[simp] theorem ends_liftExcept (x : Except Stop α) :
    Ends (liftM x : Process σ α) s P ↔ ∀ a, x = .ok a → P a s := by
  cases x with
  | error r => exact iff_of_true (fun _ _ h => by cases h) (by simp)
  | ok b => exact (ends_pure b).trans (by simp)

theorem Ends.mono (h : Ends m s P) (hP : ∀ a s', P a s' → P' a s') : Ends m s P' :=
  fun a s' hr => hP a s' (h a s' hr)

theorem Ends.and (h : Ends m s P) (h' : Ends m s P') : Ends m s fun a s' => P a s' ∧ P' a s' :=
  fun a s' hr => ⟨h a s' hr, h' a s' hr⟩

theorem Ends.bind (hm : Ends m s P) (hf : ∀ a s', P a s' → Ends (f a) s' Q) : Ends (m >>= f) s Q :=
  ends_bind.mpr (hm.mono hf)

theorem ends_then (hf : ∀ a s', Ends (f a) s' Q) : Ends (m >>= f) s Q :=
  ends_bind.mpr fun a s' _ => hf a s'

end

def zoom {σ τ α : Type} (view : τ → σ) (put : τ → σ → τ) (m : Process σ α) : Process τ α :=
  fun t => do
  let (a, s) ← m (view t)
  return (a, put t s)

@[simp] theorem ends_zoom {σ τ α : Type} {view : τ → σ} {put : τ → σ → τ} {m : Process σ α} {t : τ}
    {P : α → τ → Prop} : Ends (zoom view put m) t P ↔ Ends m (view t) fun a s => P a (put t s) := by
  unfold Ends zoom
  change (∀ a t', ((m (view t)).bind fun r => .ok (r.1, put t r.2)) = .ok (a, t') → P a t') ↔
    ∀ a s', m (view t) = .ok (a, s') → _
  cases m (view t) with
  | error r => exact iff_of_true (fun _ _ h => by cases h) (by simp)
  | ok r =>
    obtain ⟨a, s⟩ := r
    constructor
    · rintro h _ _ ⟨⟩
      exact h _ _ rfl
    · rintro h _ _ ⟨⟩
      exact h _ _ rfl

section
variable {σ τ α β : Type} {view : τ → σ} {put : τ → σ → τ}

theorem zoom_pure (hput : ∀ t, put t (view t) = t) (a : α) : zoom view put (pure a) = pure a := by
  funext t
  change Except.ok (a, put t (view t)) = .ok (a, t)
  rw [hput]

theorem zoom_bind (hview : ∀ t s, view (put t s) = s) (hput : ∀ t s s', put (put t s) s' = put t s')
    (m : Process σ α) (f : α → Process σ β) :
    zoom view put (m >>= f) = zoom view put m >>= fun a => zoom view put (f a) := by
  funext t
  change ((m (view t)).bind fun r => f r.1 r.2).bind _ = ((m (view t)).bind _).bind _
  cases m (view t) with
  | error r => rfl
  | ok r =>
    change (f r.1 r.2).bind _ = (f r.1 (view (put t r.2))).bind _
    rw [hview]
    cases f r.1 r.2 with
    | error r' => rfl
    | ok r' =>
      change Except.ok (r'.1, put t r'.2) = .ok (r'.1, put (put t r.2) r'.2)
      rw [hput]

end

section
variable {ε σ α β : Type}

/-- The computation returns, and does so as `P` says. -/
def Returns (m : Process σ α) (s : σ) (P : α → σ → Prop) : Prop :=
  ∃ a s', m.run s = .ok (a, s') ∧ P a s'

variable {m : Process σ α} {f : α → Process σ β} {s : σ} {P : α → σ → Prop} {Q : β → σ → Prop}

@[simp] theorem returns_pure (a : α) : Returns (pure a : Process σ α) s P ↔ P a s := yields_pure a

@[simp] theorem returns_bind : Returns (m >>= f) s Q ↔ Returns m s fun a s' => Returns (f a) s' Q :=
  yields_bind

@[simp] theorem returns_get {P : σ → σ → Prop} : Returns (get : Process σ σ) s P ↔ P s s :=
  returns_pure s

@[simp] theorem returns_set {P : PUnit → σ → Prop} (s' : σ) :
    Returns (set s' : Process σ PUnit) s P ↔ P ⟨⟩ s' :=
  yields_modify fun _ => s'

@[simp] theorem returns_modify {P : PUnit → σ → Prop} (g : σ → σ) :
    Returns (modify g : Process σ PUnit) s P ↔ P ⟨⟩ (g s) := yields_modify g

@[simp] theorem returns_ite {c : Prop} [Decidable c] {m' : Process σ α} :
    Returns (if c then m else m') s P ↔ if c then Returns m s P else Returns m' s P := yields_ite

@[simp] theorem returns_lift {m : StateM σ α} : Returns (liftM m : Process σ α) s P ↔ Post m s P := by
  constructor
  · rintro ⟨a, s', hr, h⟩
    have hm : m.run s = (a, s') := Except.ok.inj hr
    rwa [Post, hm]
  · exact fun h => ⟨_, _, rfl, h⟩

theorem run_eq_ok_iff {s' : σ} {a : α} :
    m.run s = .ok (a, s') ↔ Returns m s fun a' s'' => a' = a ∧ s'' = s' := by
  constructor
  · intro h
    exact ⟨a, s', h, rfl, rfl⟩
  · rintro ⟨_, _, h, rfl, rfl⟩
    exact h

theorem Returns.mono {P' : α → σ → Prop} (h : Returns m s P) (hP : ∀ a s', P a s' → P' a s') :
    Returns m s P' :=
  Yields.mono h hP

theorem Returns.ends (h : Returns m s P) : Ends m s P := by
  obtain ⟨a, s', hm, ha⟩ := h
  intro a' s'' hm'
  rw [hm] at hm'
  cases hm'
  exact ha

end

theorem ends_interp {Q : Type} {A : Q → Type} {σ α : Type} {Ok : Q → Prop} {P : α → Prop} {I : σ → Prop}
    {h : (q : Q) → Process σ (A q)} (hstep : ∀ q, Ok q → ∀ s, I s → Ends (h q) s fun _ s' => I s')
    {p : Prog Q A α} (hp : p.Sat Ok P) {s : σ} (hs : I s) : Ends (p.interp h) s fun a s' => P a ∧
    I s' := by
  induction p generalizing s with
  | pure a => exact (ends_pure a).mpr ⟨hp, hs⟩
  | ask q k ih => exact (hstep q hp.1 s hs).bind fun a s' hs' => ih a (hp.2 a) hs'

section
variable {σ α β : Type}

/-- `m` does what `m'` does, or ends the process. -/
def Guards (m m' : Process σ α) : Prop := ∀ s, m.run s = m'.run s ∨ m.run s = .error .exit

theorem Guards.refl (m : Process σ α) : Guards m m := fun _ => .inl rfl

theorem Guards.bind {m m' : Process σ α} {f f' : α → Process σ β} (h : Guards m m')
    (hf : ∀ a, Guards (f a) (f' a)) : Guards (m >>= f) (m' >>= f') := by
  intro s
  rw [StateT.run_bind, StateT.run_bind]
  rcases h s with h | h
  · rw [h]
    cases m'.run s with
    | error r => exact .inl rfl
    | ok r => exact hf r.1 r.2
  · rw [h]
    exact .inr rfl

theorem Guards.interp {Q : Type} {A : Q → Type} {h h' : (q : Q) → Process σ (A q)}
    (hq : ∀ q, Guards (h q) (h' q)) (p : Prog Q A α) : Guards (p.interp h) (p.interp h') := by
  induction p with
  | pure a => exact .refl _
  | ask q k ih => exact (hq q).bind ih

end

end Vapory
