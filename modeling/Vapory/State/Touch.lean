import Vapory.State.Since

/-! What transfers and a nonce increment do to the view, and which of them only touch accounts. -/
namespace Vapory
open Function Option

/-- The account after `addBalance`. -/
def AccountView.credit (w : AccountView) (amount : U256) : AccountView :=
  { w with balance := w.balance + amount }

namespace AccountView

theorem credit_zero (w : AccountView) : w.credit 0 = w := by
  have h0 : w.balance + 0 = w.balance := BitVec.add_zero w.balance
  rw [credit, h0]

theorem credit_back (w : AccountView) (value : U256) : (w.credit (0 - value)).credit value = w := by
  have hback : w.balance + (0 - value) + value = w.balance := by bv_omega
  simp only [credit, hback]

end AccountView

namespace View

/-- The view after `addBalance`; `fresh` is the account that is made where there is none. -/
def credit (fresh : AccountView) (v : View) (addr : Address) (amount : U256) : View :=
  Function.update v addr (some (((v addr).getD fresh).credit amount))

/-- The view after `subBalance`. -/
def debit (v : View) (addr : Address) (value : U256) : View :=
  if value = 0 then v else Function.update v addr ((v addr).map (·.credit (0 - value)))

theorem credit_zero {fresh : AccountView} {v : View} (addr x : Address) :
    v.credit fresh addr 0 x = v x ∨ x = addr ∧ v x = none ∧ v.credit fresh addr 0 x = some fresh := by
  unfold credit
  rw [AccountView.credit_zero]
  by_cases hx : x = addr
  · subst hx
    rw [update_self]
    cases v x with
    | none => exact .inr ⟨rfl, rfl, rfl⟩
    | some w => exact .inl rfl
  · exact .inl (update_of_ne hx ..)

end View

namespace State
variable {H : Hasher} {s s₁ s₂ s' : State} {addr : Address}

def fresh (H : Hasher) (s : State) : AccountView :=
  (Account.new H s.accountStartNonce 0).view H s.db

/-- Accounts are as before, except that there may be new ones without balance and code. -/
def Touched (H : Hasher) (s s' : State) : Prop :=
  ∀ addr, s'.view H addr = s.view H addr ∨ s.view H addr = none ∧ s'.view H addr = some (s.fresh H)

theorem fresh_of_later (h : Later H s s') (hs : s.Sound H) : s'.fresh H = s.fresh H := by
  have hsince := h.since s (.refl hs)
  rw [fresh, fresh, hsince.db, hsince.accountStartNonce]

namespace Touched

theorem of_view (h : s'.view H = s.view H) : Touched H s s' := fun addr => .inl (congrFun h addr)

theorem trans (h₁ : Touched H s s₁) (h₂ : Touched H s₁ s₂) (hfresh : s₁.fresh H = s.fresh H) :
    Touched H s s₂ := by
  intro addr
  rcases h₁ addr with h | ⟨hnone, h⟩
  · rcases h₂ addr with h' | ⟨hnone', h'⟩
    · exact .inl (h'.trans h)
    · exact .inr ⟨h ▸ hnone', hfresh ▸ h'⟩
  · rcases h₂ addr with h' | ⟨hnone', -⟩
    · exact .inr ⟨hnone, h'.trans h⟩
    · rw [h] at hnone'
      cases hnone'

end Touched

theorem view_written {a : Account} {w : AccountView} (hr : Reads H s s₁)
    (hcache : s'.cache = Function.update s₁.cache addr (some a)) (hdb : s'.db = s₁.db)
    (hw : a.view H s.db = w) : s'.view H = Function.update (s.view H) addr (some w) := by
  rw [← hr.view, ← hw, ← hr.db]
  exact view_replaced hcache hdb rfl

section
variable (hs : s.Sound H)
include hs

theorem view_addBalance (amount : U256) :
    PostE (addBalance H addr amount) s
    (fun _ s' => s'.view H = (s.view H).credit (s.fresh H) addr amount)
      fun _ => True := by
  unfold addBalance View.credit
  simp only [postE_bind, postE_lift]
  refine (account_spec hs addr).mono ?_
  rintro (_ | a) s₁ ⟨hr, hc, hv⟩
  · have hnew : (Account.new H s₁.accountStartNonce amount).view H s.db = (s.fresh H).credit amount := by
      rw [← Account.new_addBalance, Account.view_addBalance, hr.accountStartNonce]
      rfl
    simp only [requireAccountStartNonce, postE_bind, postE_get, postE_ite, postE_pure, postE_throw,
      postE_lift, createAccount, update, log, post_bind, post_modify, hv, map_none, getD_none]
    split_ifs <;> exact view_written hr rfl rfl hnew
  · simp only [postE_bind, postE_ite, postE_lift, postE_pure, update, log, post_modify, hc, hv,
      getD_some, map_some]
    split_ifs <;> exact view_written hr rfl rfl (a.view_addBalance amount)

theorem view_subBalance (value : U256) :
    PostE (subBalance H addr value) s (fun _ s' =>
      s'.view H = (s.view H).debit addr value ∧
      (value ≠ 0 → ∃ w, s.view H addr = some w ∧ value ≤ w.balance)) fun _ => True := by
  unfold subBalance View.debit
  simp only [postE_ite, postE_pure, postE_bind, postE_lift]
  split_ifs with hvalue
  · exact ⟨rfl, fun h => absurd hvalue h⟩
  · refine (account_spec hs addr).mono ?_
    rintro (_ | a) s₁ ⟨hr, -, hv⟩
    · exact trivial
    · simp only [postE_ite, postE_throw, postE_bind]
      split_ifs with hcash
      refine (view_addBalance hr.sound _).mono (fun _ s' h => ⟨?_, fun _ => ⟨_, hv, ?_⟩⟩) fun _ _ => trivial
      · rw [h, View.credit, hr.view, hv]
        rfl
      · exact BitVec.not_lt.mp hcash

theorem view_transferBalance (src dst : Address) (value : U256) :
    PostE (transferBalance H src dst value) s (fun _ s' =>
      s'.view H = ((s.view H).debit src value).credit (s.fresh H) dst value ∧
        (value ≠ 0 → ∃ w, s.view H src = some w ∧ value ≤ w.balance)) fun _ => True := by
  unfold transferBalance
  rw [postE_bind]
  refine ((later_subBalance hs value).and (view_subBalance hs value)).mono ?_ fun _ _ => trivial
  rintro _ s₁ ⟨hlater, hview, hcash⟩
  refine (view_addBalance (hlater.sound hs) value).mono (fun _ s' h' => ⟨?_, hcash⟩) fun _ _ => trivial
  rw [h', hview, fresh_of_later hlater hs]

end

theorem touched_transfer {src dst : Address} {value : U256}
    (hview : s'.view H = ((s.view H).debit src value).credit (s.fresh H) dst value)
    (hcash : value ≠ 0 → ∃ w, s.view H src = some w ∧ value ≤ w.balance)
    (hnothing : value = 0 ∨ src = dst) : Touched H s s' := by
  by_cases hvalue : value = 0
  · intro addr
    rw [hview, hvalue, View.debit, if_pos rfl]
    rcases View.credit_zero dst addr with h | ⟨-, h⟩
    · exact .inl h
    · exact .inr h
  · obtain rfl := hnothing.resolve_left hvalue
    obtain ⟨w, hw, -⟩ := hcash hvalue
    refine .of_view ?_
    rw [hview, View.debit, if_neg hvalue, View.credit, update_self, hw, map_some, getD_some,
      w.credit_back, update_idem, ← hw, update_eq_self]

end State
end Vapory
