import Mathlib.Tactic.Common

/-! Postconditions of state computations. The rules are equivalences, so that `simp` carries
a postcondition back through a whole computation. -/
namespace Vapory
open List

universe u
variable {ε σ α β : Type u}

/-- `m` started in `s` ends as `P` says. -/
def Post (m : StateM σ α) (s : σ) (P : α → σ → Prop) : Prop := P (m.run s).1 (m.run s).2

section
variable {m : StateM σ α} {f : α → StateM σ β} {s : σ} {P P' : α → σ → Prop} {Q : β → σ → Prop}

@[simp] theorem post_pure (a : α) : Post (pure a) s P ↔ P a s := Iff.rfl

@[simp] theorem post_bind : Post (m >>= f) s Q ↔ Post m s fun a s' => Post (f a) s' Q := Iff.rfl

@[simp] theorem post_get {P : σ → σ → Prop} : Post get s P ↔ P s s := Iff.rfl

@[simp] theorem post_set {P : PUnit → σ → Prop} (s' : σ) : Post (set s') s P ↔ P ⟨⟩ s' := Iff.rfl

@[simp] theorem post_modify {P : PUnit → σ → Prop} (g : σ → σ) : Post (modify g) s P ↔ P ⟨⟩ (g s) :=
  Iff.rfl

@[simp] theorem post_ite {c : Prop} [Decidable c] {m' : StateM σ α} :
    Post (if c then m else m') s P ↔ if c then Post m s P else Post m' s P := by
  split_ifs <;> rfl

@[simp] theorem post_true : Post m s (fun _ _ => True) ↔ True := Iff.rfl

theorem Post.mono (h : Post m s P) (hP : ∀ a s', P a s' → P' a s') : Post m s P' := hP _ _ h

end

section
variable {I : σ → Prop} {l : List α} {s : σ}

theorem post_mapM {f : α → StateM σ β} {g : α → β}
    (h : ∀ a ∈ l, ∀ s, I s → Post (f a) s fun r s' => r = g a ∧ I s') (hs : I s) :
    Post (l.mapM f) s fun r s' => r = l.map g ∧ I s' := by
  induction l generalizing s with
  | nil => exact ⟨rfl, hs⟩
  | cons a l ih =>
    rw [mapM_cons, post_bind]
    apply (h a mem_cons_self s hs).mono
    intro r s₁ hr
    obtain ⟨rfl, hs₁⟩ := hr
    rw [post_bind]
    apply (ih (fun a' ha' => h a' (mem_cons_of_mem _ ha')) hs₁).mono
    intro rs s₂ hrs
    obtain ⟨rfl, hs₂⟩ := hrs
    exact ⟨rfl, hs₂⟩

end

/-- `m` started in `s` returns and ends as `P` says, or it throws and ends as `E` says. -/
def PostE (m : ExceptT ε (StateM σ) α) (s : σ) (P : α → σ → Prop) (E : σ → Prop) : Prop :=
  Post m.run s fun r s' => match r with
    | .ok a => P a s'
    | .error _ => E s'

section
variable {m : ExceptT ε (StateM σ) α} {f : α → ExceptT ε (StateM σ) β} {s : σ} {P P' : α → σ → Prop}
  {Q : β → σ → Prop} {E E' : σ → Prop}

@[simp] theorem postE_pure (a : α) : PostE (pure a : ExceptT ε (StateM σ) α) s P E ↔ P a s :=
  Iff.rfl

@[simp] theorem postE_throw (e : ε) : PostE (throw e : ExceptT ε (StateM σ) α) s P E ↔ E s :=
  Iff.rfl

@[simp] theorem postE_bind : PostE (m >>= f) s Q E ↔ PostE m s (fun a s' => PostE (f a) s' Q E) E := by
  unfold PostE Post
  rw [ExceptT.run_bind, StateT.run_bind]
  rcases m.run.run s with ⟨_ | a, s'⟩ <;> rfl

@[simp] theorem postE_lift {m : StateM σ α} :
    PostE (liftM m : ExceptT ε (StateM σ) α) s P E ↔ Post m s P := Iff.rfl

@[simp] theorem postE_get {P : σ → σ → Prop} : PostE (get : ExceptT ε (StateM σ) σ) s P E ↔ P s s :=
  Iff.rfl

@[simp] theorem postE_set {P : PUnit → σ → Prop} (s' : σ) :
    PostE (set s' : ExceptT ε (StateM σ) PUnit) s P E ↔ P ⟨⟩ s' :=
  Iff.rfl

@[simp] theorem postE_modify {P : PUnit → σ → Prop} (g : σ → σ) :
    PostE (modify g : ExceptT ε (StateM σ) PUnit) s P E ↔ P ⟨⟩ (g s) := Iff.rfl

@[simp] theorem postE_ite {c : Prop} [Decidable c] {m' : ExceptT ε (StateM σ) α} :
    PostE (if c then m else m') s P E ↔ if c then PostE m s P E else PostE m' s P E := by
  split_ifs <;> rfl

theorem PostE.mono (h : PostE m s P E) (hP : ∀ a s', P a s' → P' a s') (hE : ∀ s', E s' → E' s') :
    PostE m s P' E' := by
  unfold PostE at h ⊢
  refine h.mono ?_
  rintro (_ | a) s' hs
  · exact hE s' hs
  · exact hP a s' hs

theorem PostE.tryCatch {g : ε → ExceptT ε (StateM σ) α} (h : PostE m s P E')
    (hg : ∀ e s', E' s' → PostE (g e) s' P E) : PostE (MonadExcept.tryCatch m g) s P E := by
  show PostE (ExceptT.tryCatch m g) s P E
  unfold PostE at h ⊢
  unfold ExceptT.tryCatch
  simp only [ExceptT.run, ExceptT.mk, post_bind]
  refine h.mono ?_
  rintro (e | a) s' hs
  · exact hg e s' hs
  · exact hs

theorem PostE.and (h : PostE m s P E) (h' : PostE m s P' E') :
    PostE m s (fun a s' => P a s' ∧ P' a s') fun s' => E s' ∧ E' s' := by
  unfold PostE Post at h h' ⊢
  revert h h'
  rcases m.run.run s with ⟨_ | a, s'⟩ <;> exact fun h h' => ⟨h, h'⟩

/-- `m` keeps `I`, whether it returns or throws. -/
def KeepsE (I : σ → Prop) (m : ExceptT ε (StateM σ) α) : Prop := ∀ s, I s → PostE m s (fun _ => I) I

theorem KeepsE.bind {I : σ → Prop} (hm : KeepsE I m) (hf : ∀ a, KeepsE I (f a)) :
    KeepsE I (m >>= f) := by
  intro s hs
  rw [postE_bind]
  exact (hm s hs).mono (fun a s' => hf a s') fun _ hs' => hs'

theorem keepsE_pure {I : σ → Prop} (a : α) : KeepsE I (pure a : ExceptT ε (StateM σ) α) :=
  fun _ hs => hs

end

/-- `m` keeps `I`. -/
def KeepsS (I : σ → Prop) (m : StateM σ α) : Prop := ∀ s, I s → Post m s fun _ => I

section
variable {I : σ → Prop} {m : StateM σ α} {f : α → StateM σ β}

theorem keepsS_pure (a : α) : KeepsS I (pure a : StateM σ α) := fun _ hs => hs

theorem KeepsS.bind (hm : KeepsS I m) (hf : ∀ a, KeepsS I (f a)) : KeepsS I (m >>= f) :=
  fun s hs => hf _ _ (hm s hs)

theorem KeepsS.lift (hm : KeepsS I m) : KeepsE I (liftM m : ExceptT ε (StateM σ) α) :=
  fun s hs => hm s hs

theorem KeepsE.run {m : ExceptT ε (StateM σ) α} (hm : KeepsE I m) : KeepsS I m.run := by
  intro s hs
  refine Post.mono (hm s hs) ?_
  rintro (_ | _) s' hs'
  · exact hs'
  · exact hs'

theorem keepsS_forM {l : List α} {f : α → StateM σ PUnit} (h : ∀ a ∈ l, KeepsS I (f a)) :
    KeepsS I (l.forM f) := by
  induction l with
  | nil => exact keepsS_pure _
  | cons a l ih =>
    exact (h a mem_cons_self).bind fun _ => ih fun b hb => h b (mem_cons_of_mem a hb)

theorem keepsS_mapM {l : List α} (h : ∀ a ∈ l, KeepsS I (f a)) : KeepsS I (l.mapM f) := by
  induction l with
  | nil => exact keepsS_pure _
  | cons a l ih =>
    rw [mapM_cons]
    apply (h a mem_cons_self).bind
    intro r
    apply (ih fun b hb => h b (mem_cons_of_mem a hb)).bind
    exact fun rs => keepsS_pure _

end
end Vapory
