import Vapory.State.Since

/-! Whole runs between a savepoint and the rollback to it. -/
namespace Vapory
namespace State
variable {H : Hasher} {s₀ s : State}

inductive Read where
  | addressInUse (addr : Address)
  | accountNonemptyAndExisting (addr : Address)
  | addressHasCode (addr : Address)
  | balance (addr : Address)
  | getNonce (addr : Address)
  | storage (addr : Address) (key : U256)
  | code (addr : Address)
  | codeHash (addr : Address)
  | codeSize (addr : Address)

def Read.exec (H : Hasher) : Read → StateM State Unit
  | addressInUse addr => do let _ ← State.addressInUse H addr
  | accountNonemptyAndExisting addr => do let _ ← State.accountNonemptyAndExisting H addr
  | addressHasCode addr => do let _ ← State.addressHasCode H addr
  | balance addr => do let _ ← State.balance H addr
  | getNonce addr => do let _ ← State.getNonce H addr
  | storage addr key => do let _ ← State.storage H addr key
  | code addr => do let _ ← State.code H addr
  | codeHash addr => do let _ ← State.codeHash H addr
  | codeSize addr => do let _ ← State.codeSize H addr

theorem Read.reads (r : Read) (h : s.Sound H) : Post (r.exec H) s fun _ s' => Reads H s s' := by
  cases r with
  | addressInUse addr => exact (addressInUse_spec h addr).mono fun _ _ hs => hs.2
  | accountNonemptyAndExisting addr =>
    exact (accountNonemptyAndExisting_spec h addr).mono fun _ _ hs => hs.2
  | addressHasCode addr => exact (addressHasCode_spec h addr).mono fun _ _ hs => hs.2
  | balance addr => exact (balance_spec h addr).mono fun _ _ hs => hs.2
  | getNonce addr => exact (getNonce_spec h addr).mono fun _ _ hs => hs.2
  | storage addr key => exact (storage_spec h addr key).mono fun _ _ hs => hs.2.1
  | code addr => exact (code_spec h addr).mono fun _ _ hs => hs.2.1
  | codeHash addr => exact (codeHash_spec h addr).mono fun _ _ hs => hs.2
  | codeSize addr => exact codeSize_spec h addr

inductive Op where
  | addBalance (addr : Address) (amount : U256)
  | subBalance (addr : Address) (value : U256)
  | transferBalance (src dst : Address) (value : U256)
  | incNonce (addr : Address)
  | setNonce (addr : Address) (newNonce : U256)
  | createContract (addr : Address)
  | setStorage (addr : Address) (key value : U256)
  | setCode (addr : Address) (newCode : Bytes)
  | read (r : Read)
  | rollback (savepoint : ℕ)

namespace Op

/-- An exception is dropped; what was done before it is not. -/
def exec (H : Hasher) : Op → StateM State Unit
  | addBalance addr amount => do let _ ← (State.addBalance H addr amount).run
  | subBalance addr value => do let _ ← (State.subBalance H addr value).run
  | transferBalance src dst value => do let _ ← (State.transferBalance H src dst value).run
  | incNonce addr => do let _ ← (State.incNonce H addr).run
  | setNonce addr newNonce => State.setNonce H addr newNonce
  | createContract addr => do let _ ← (State.createContract H addr).run
  | setStorage addr key value => State.setStorage H addr key value
  | setCode addr newCode => State.setCode H addr newCode
  | read r => r.exec H
  | rollback savepoint => State.rollback H savepoint

/-- A contract is created where there is no account, storage is set where there is one, code
is set for an account that is changed and not yet committed, and an inner rollback is to a
savepoint made since `s₀`. -/
def Allowed (H : Hasher) (s₀ s : State) : Op → Prop
  | createContract addr => ((addressInUse H addr).run s).1 = false
  | setStorage addr _ _ => ((addressInUse H addr).run s).1 = true
  | setCode addr _ => ∃ a, s.cache addr = some a ∧ a.isDirty
  | rollback savepoint => s₀.savepoint ≤ savepoint ∧ savepoint ≤ s.savepoint
  | _ => True

theorem since_exec (h : Since H s₀ s) (op : Op) (hop : op.Allowed H s₀ s) :
    Post (op.exec H) s fun _ s' => Since H s₀ s' := by
  have hdrop {m : StateOp Unit} (hm : PostE m s (fun _ s' => Later H s s') (Later H s)) :
      Post m.run s fun _ s' => Since H s₀ s' := by
    refine Post.mono hm ?_
    rintro (_ | _) s' hs'
    · exact hs'.since s₀ h
    · exact hs'.since s₀ h
  have hinUse (addr : Address) : ((addressInUse H addr).run s).1 = (s.view H addr).isSome :=
    (addressInUse_spec h.sound addr).1
  cases op with
  | addBalance addr amount => exact hdrop (later_addBalance h.sound amount)
  | subBalance addr value => exact hdrop (later_subBalance h.sound value)
  | transferBalance src dst value => exact hdrop (later_transferBalance h.sound src dst value)
  | incNonce addr => exact hdrop (later_incNonce h.sound)
  | setNonce addr newNonce => exact (later_setNonce h.sound newNonce).mono fun _ _ hl => hl.since s₀ h
  | createContract addr =>
    refine hdrop (later_createContract ?_)
    rw [Allowed, hinUse] at hop
    exact Option.isSome_eq_false_iff.mp hop |> Option.isNone_iff_eq_none.mp
  | setStorage addr key value =>
    rw [Allowed, hinUse] at hop
    exact (later_setStorage h.sound hop key value).mono fun _ _ hl => hl.since s₀ h
  | setCode addr newCode =>
    obtain ⟨a, ha, hd⟩ := hop
    have hdirty : s.Dirty addr := ⟨a, ha, by simpa [Account.isDirty] using hd⟩
    exact (later_setCode h.sound hdirty newCode).mono fun _ _ hl => hl.since s₀ h
  | read r => exact (r.reads h.sound).mono fun _ _ hr => h.read hr
  | rollback savepoint => exact (since_rollback h hop.1 hop.2).mono fun _ _ hs => hs.1

end Op

/-- The states after a savepoint of `s₀`. -/
inductive Run (H : Hasher) (s₀ : State) : State → Prop where
  | start : Run H s₀ s₀
  | step {s : State} (op : Op) (h : Run H s₀ s) (hop : op.Allowed H s₀ s) :
    Run H s₀ ((op.exec H).run s).2

theorem since_run (hsound : s₀.Sound H) (h : Run H s₀ s) : Since H s₀ s := by
  induction h with
  | start => exact .refl hsound
  | step op _ hop ih => exact op.since_exec ih hop

/-- After a rollback to the savepoint everything reads as it did there. -/
theorem rollback_restores (hsound : s₀.Sound H) (hrun : Run H s₀ s) (addr : Address) :
    ReadsAlike H addr s₀ ((rollback H s₀.savepoint).run s).2 := by
  obtain ⟨h', hback⟩ := view_rollback (since_run hsound hrun)
  exact reads_agree hsound addr h'.sound h'.accountStartNonce (·.storageRoot)
    ((congrFun hback addr).trans Option.map_id'.symm)

/-- A hash that tells only lengths apart. -/
def lengthHasher : Hasher := ⟨fun b => UInt8.ofNat b.length :: .replicate 31 0, fun _ => by simp⟩

def exampleState : State :=
  opened ⟨fun addr => if addr = 1 then some ⟨3, 10, 0, 0⟩ else none, fun _ k => k, fun _ => []⟩ 0
    ⟨[]⟩ id

def exampleOps : List Op :=
  [.addBalance 1 5, .setStorage 1 4 7, .transferBalance 1 2 6, .setCode 2 [1, 2, 3],
    .createContract 3, .rollback 4, .incNonce 2, .subBalance 1 100, .read (.balance 9)]

def execAll (H : Hasher) (s : State) (ops : List Op) : State :=
  ops.foldl (fun s op => ((op.exec H).run s).2) s

theorem run_exampleOps :
    Run lengthHasher exampleState (execAll lengthHasher exampleState exampleOps) := by
  refine .step _ (.step _ (.step _
    (.step _ (.step _ (.step _ (.step _ (.step _ (.step _ .start ?_) ?_) ?_) ?_) ?_) ?_) ?_) ?_) ?_
  · trivial
  · rfl
  · trivial
  · exact ⟨_, rfl, rfl⟩
  · rfl
  · exact ⟨by decide, by decide⟩
  all_goals trivial

theorem sound_exampleState : exampleState.Sound lengthHasher := by
  refine sound_opened ?_ _ _ _
  intro addr v hv
  have hempty : lengthHasher.hash [] = 0 := by decide +kernel
  simp only [StateDB.view] at hv
  split_ifs at hv
  · cases hv
    simp [Account.view, Account.load, Hasher.emptySHA3, hempty]
  · cases hv

/-- The balance was 9 before the rollback. -/
theorem rollback_restores_exampleOps :
    ((balance lengthHasher 1).run (execAll lengthHasher exampleState exampleOps)).1 = 9 ∧
      ((balance lengthHasher 1).run
        ((rollback lengthHasher 0).run (execAll lengthHasher exampleState exampleOps)).2).1 = 10 :=
  ⟨by decide, (rollback_restores sound_exampleState run_exampleOps 1).balance.trans rfl⟩

end State
end Vapory
