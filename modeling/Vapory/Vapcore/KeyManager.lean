import Mathlib.Data.List.AList
import Vapory.Devcore.FixedHash

/-! `KeyManager.cpp` over `SecretStore.cpp`: the keys of accounts, by their ids and by their
addresses. -/
namespace Vapory
open List

abbrev H128 := BitVec 128

/-- What the key manager uses of cryptography. A key that can be decrypted is the one that was
encrypted. -/
structure KeyCrypto (C : Type) where
  /-- `KeyPair(s).address()`. -/
  address : Bytes → Address
  encrypt : Bytes → String → C
  decrypt : C → String → Option Bytes
  hashPassword : String → H256
  decrypt_encrypt : ∀ s p q t, decrypt (encrypt s p) q = some t → t = s

structure EncryptedKey (C : Type) where
  encryptedKey : C
  address : Address

/-- `SecretStore`, with `m_keys` and `m_cached`. -/
structure SecretStore (C : Type) where
  keys : AList fun _ : H128 => EncryptedKey C
  cached : AList fun _ : H128 => Bytes

structure KeyInfo where
  passHash : H256 := 0
  accountName : String := ""
  passwordHint : String := ""

structure KeyManager (C : Type) where
  uuidLookup : AList fun _ : H128 => Address
  addrLookup : AList fun _ : Address => H128
  keyInfo : AList fun _ : Address => KeyInfo
  passwordHint : AList fun _ : H256 => String
  cachedPasswords : AList fun _ : H256 => String
  store : SecretStore C

section
variable {α β : Type} [DecidableEq α] {m : AList fun _ : α => β} {k x : α} {v w : β}

theorem lookup_insert_eq_some :
    (m.insert k v).lookup x = some w ↔ x = k ∧ v = w ∨ x ≠ k ∧ m.lookup x = some w := by
  by_cases hx : x = k
  · subst hx
    simp
  · simp [AList.lookup_insert_ne hx, hx]

theorem lookup_erase_eq_some : (m.erase k).lookup x = some w ↔ x ≠ k ∧ m.lookup x = some w := by
  by_cases hx : x = k
  · subst hx
    simp
  · simp [AList.lookup_erase_ne hx, hx]

end

variable {C : Type} (K : KeyCrypto C)

namespace SecretStore

/-- `secret`, which keeps a key that it decrypts. -/
def secret (store : SecretStore C) (uuid : H128) (pass : String) : Option Bytes × SecretStore C :=
  match store.cached.lookup uuid with
  | some s => (some s, store)
  | none =>
    match (store.keys.lookup uuid).bind fun key => K.decrypt key.encryptedKey pass with
    | none => (none, store)
    | some s => (some s, { store with cached := store.cached.insert uuid s })

/-- `importSecret`, with the random id. -/
def importSecret (store : SecretStore C) (uuid : H128) (s : Bytes) (pass : String) : SecretStore C :=
  ⟨store.keys.insert uuid ⟨K.encrypt s pass, K.address s⟩, store.cached.insert uuid s⟩

def kill (store : SecretStore C) (uuid : H128) : SecretStore C :=
  ⟨store.keys.erase uuid, store.cached.erase uuid⟩

def addresses (store : SecretStore C) : List Address := store.keys.entries.map fun e => e.2.address

def Has (store : SecretStore C) (u : H128) (a : Address) : Prop :=
  ∃ key, store.keys.lookup u = some key ∧ key.address = a

/-- What is decrypted or kept for an id is the secret of the address that the key has. -/
structure Genuine (store : SecretStore C) : Prop where
  decrypts : ∀ u key, store.keys.lookup u = some key →
    ∀ pass s, K.decrypt key.encryptedKey pass = some s → K.address s = key.address
  cached : ∀ u s, store.cached.lookup u = some s → store.Has u (K.address s)

variable {K} {store : SecretStore C} {u v : H128} {a b : Address} {s : Bytes} {pass : String}

theorem mem_addresses : a ∈ store.addresses ↔ ∃ u, store.Has u a := by
  constructor
  · intro ha
    obtain ⟨e, he, rfl⟩ := mem_map.mp ha
    exact ⟨e.1, e.2, AList.mem_lookup_iff.mpr he, rfl⟩
  · rintro ⟨u, key, hkey, rfl⟩
    exact mem_map.mpr ⟨⟨u, key⟩, AList.mem_lookup_iff.mp hkey, rfl⟩

theorem has_importSecret :
    (store.importSecret K u s pass).Has v a ↔ v = u ∧ K.address s = a ∨ v ≠ u ∧ store.Has v a := by
  simp only [Has, importSecret, lookup_insert_eq_some, or_and_right, exists_or, and_assoc,
    exists_and_left, exists_eq_left']

theorem has_kill : (store.kill u).Has v a ↔ v ≠ u ∧ store.Has v a := by
  simp only [Has, kill, lookup_erase_eq_some, and_assoc, exists_and_left]

theorem keys_secret (store : SecretStore C) (u : H128) (pass : String) :
    (store.secret K u pass).2.keys = store.keys := by
  unfold secret
  split
  · rfl
  · split <;> rfl

theorem Genuine.importSecret (h : store.Genuine K) : (store.importSecret K u s pass).Genuine K where
  decrypts := by
    intro v key hkey q t ht
    obtain ⟨-, rfl⟩ | ⟨-, hkey⟩ := lookup_insert_eq_some.mp hkey
    · rw [K.decrypt_encrypt s pass q t ht]
    · exact h.decrypts v key hkey q t ht
  cached := by
    intro v t ht
    rw [has_importSecret]
    obtain ⟨hv, rfl⟩ | ⟨hv, ht⟩ := lookup_insert_eq_some.mp ht
    · exact .inl ⟨hv, rfl⟩
    · exact .inr ⟨hv, h.cached v t ht⟩

theorem Genuine.kill (h : store.Genuine K) : (store.kill u).Genuine K where
  decrypts := fun v key hkey => h.decrypts v key (lookup_erase_eq_some.mp hkey).2
  cached := by
    intro v t ht
    obtain ⟨hv, ht⟩ := lookup_erase_eq_some.mp ht
    exact has_kill.mpr ⟨hv, h.cached v t ht⟩

theorem Genuine.secret (h : store.Genuine K) (u : H128) (pass : String) :
    (store.secret K u pass).2.Genuine K ∧ ∀ s, (store.secret K u pass).1 = some s →
    store.Has u (K.address s) := by
  unfold SecretStore.secret
  cases hcached : store.cached.lookup u with
  | some t =>
    refine ⟨h, fun s hs => ?_⟩
    rw [← Option.some.inj hs]
    exact h.cached u t hcached
  | none =>
    cases hkey : store.keys.lookup u with
    | none => exact ⟨h, fun s hs => absurd hs (by simp)⟩
    | some key =>
      rw [Option.bind_some]
      cases hdecrypt : K.decrypt key.encryptedKey pass with
      | none => exact ⟨h, fun s hs => absurd hs (by simp)⟩
      | some t =>
        have hhas : store.Has u (K.address t) := ⟨key, hkey, (h.decrypts u key hkey pass t hdecrypt).symm⟩
        refine ⟨⟨h.decrypts, fun v t' ht' => ?_⟩, fun s hs => ?_⟩
        · obtain ⟨rfl, rfl⟩ | ⟨-, ht'⟩ := lookup_insert_eq_some.mp ht'
          · exact hhas
          · exact h.cached v t' ht'
        · rw [← Option.some.inj hs]
          exact hhas

end SecretStore

namespace KeyManager

def cachePassword (m : KeyManager C) (pass : String) : KeyManager C :=
  { m with cachedPasswords := m.cachedPasswords.insert (K.hashPassword pass) pass }

/-- `import`, with the random id. -/
def importSecret (m : KeyManager C) (uuid : H128) (s : Bytes)
    (accountName pass passwordHint : String) : KeyManager C :=
  let addr := K.address s
  let passHash := K.hashPassword pass
  let m := m.cachePassword K pass
  { m with
    passwordHint := m.passwordHint.insert passHash passwordHint
    store := m.store.importSecret K uuid s pass
    keyInfo := m.keyInfo.insert addr ⟨passHash, accountName, ""⟩
    addrLookup := m.addrLookup.insert addr uuid
    uuidLookup := m.uuidLookup.insert uuid addr }

/-- `importExisting` with an address. -/
def importAddress (m : KeyManager C) (uuid : H128) (accountName : String) (a : Address)
    (passHash : H256) (passwordHint : String) : KeyManager C :=
  { m with
    passwordHint := if passHash ∈ m.passwordHint then m.passwordHint else m.passwordHint.insert
      passHash passwordHint
    uuidLookup := m.uuidLookup.insert uuid a
    addrLookup := m.addrLookup.insert a uuid
    keyInfo := m.keyInfo.insert a { (m.keyInfo.lookup a).getD {} with passHash, accountName } }

/-- `importExisting` with a password. -/
def importExisting (m : KeyManager C) (uuid : H128) (info pass passwordHint : String) : KeyManager C :=
  let (key, store) := m.store.secret K uuid pass
  let m := { m with store }
  match key with
  | none => m
  | some key =>
    let passHash := K.hashPassword pass
    let m := if passHash ∈ m.cachedPasswords then m else m.cachePassword K pass
    m.importAddress uuid info (K.address key) passHash passwordHint

/-- `kill`. An address without a key has the zero id. -/
def kill (m : KeyManager C) (a : Address) : KeyManager C :=
  let id := (m.addrLookup.lookup a).getD 0
  { m with
    uuidLookup := m.uuidLookup.erase id
    addrLookup := m.addrLookup.erase a
    keyInfo := m.keyInfo.erase a
    store := m.store.kill id }

/-- `accounts`, as a list in no order. -/
def accounts (m : KeyManager C) : List Address :=
  (m.keyInfo.keys ++ m.store.addresses).filter fun a => a ≠ 0

def hasAccount (m : KeyManager C) (a : Address) : Bool :=
  a ≠ 0 ∧ (a ∈ m.keyInfo ∨ m.store.addresses.any (· = a))

inductive Call where
  | importSecret (uuid : H128) (s : Bytes) (accountName pass passwordHint : String)
  | importExisting (uuid : H128) (info pass passwordHint : String)
  | importAddress (uuid : H128) (accountName : String) (a : Address) (passHash : H256)
    (passwordHint : String)
  | kill (a : Address)

def Call.exec (m : KeyManager C) : Call → KeyManager C
  | importSecret uuid s accountName pass hint => m.importSecret K uuid s accountName pass hint
  | importExisting uuid info pass hint => m.importExisting K uuid info pass hint
  | importAddress uuid accountName a passHash hint => m.importAddress uuid accountName a passHash hint
  | kill a => m.kill a

def Inverse (m : KeyManager C) : Prop :=
  ∀ u a, m.uuidLookup.lookup u = some a ↔ m.addrLookup.lookup a = some u

/-- No other pair in the lookups has the id or the address. -/
def Alone (m : KeyManager C) (u : H128) (a : Address) : Prop :=
  ∀ v b, m.uuidLookup.lookup v = some b → (v = u ↔ b = a)

/-- The lookups are inverse and have the keys of the store. -/
structure Sound (m : KeyManager C) : Prop where
  inverse : m.Inverse
  has : ∀ u a, m.store.Has u a → m.uuidLookup.lookup u = some a
  genuine : m.store.Genuine K

def Gone (m : KeyManager C) (a : Address) : Prop :=
  a ∉ m.accounts ∧ m.hasAccount a = false ∧ ∀ u, ¬ m.store.Has u a

variable {K} {m : KeyManager C} {u v : H128} {a b : Address}

theorem Inverse.unique (h : m.Inverse) (hu : m.uuidLookup.lookup u = some a)
    (hv : m.uuidLookup.lookup v = some a) : u = v :=
  Option.some.inj (((h u a).mp hu).symm.trans ((h v a).mp hv))

theorem Inverse.insert_iff (h : m.Inverse) : (∀ v b, (m.uuidLookup.insert u a).lookup v = some b ↔
    (m.addrLookup.insert a u).lookup b = some v) ↔ m.Alone u a := by
  simp only [lookup_insert_eq_some]
  constructor
  · intro hinsert v b hv
    have hb := (h v b).mp hv
    constructor
    · rintro rfl
      by_contra hne
      rcases (hinsert v b).mpr (.inr ⟨hne, hb⟩) with ⟨-, heq⟩ | ⟨hself, -⟩
      · exact hne heq.symm
      · exact hself rfl
    · rintro rfl
      by_contra hne
      rcases (hinsert v b).mp (.inr ⟨hne, hv⟩) with ⟨-, heq⟩ | ⟨hself, -⟩
      · exact hne heq.symm
      · exact hself rfl
  · intro halone v b
    refine or_congr ⟨fun hv => ⟨hv.2.symm, hv.1.symm⟩, fun hv => ⟨hv.2.symm, hv.1.symm⟩⟩ ?_
    rw [← h v b]
    exact and_congr_left fun hv => not_congr (halone v b hv)

namespace Sound

theorem importSecret (h : Sound K m) {s : Bytes} {accountName pass hint : String}
    (halone : m.Alone u (K.address s)) : Sound K (m.importSecret K u s accountName pass hint) where
  inverse := h.inverse.insert_iff.mpr halone
  has := by
    intro v a hv
    apply lookup_insert_eq_some.mpr
    rcases SecretStore.has_importSecret.mp hv with hnew | ⟨hne, hold⟩
    · exact .inl hnew
    · exact .inr ⟨hne, h.has v a hold⟩
  genuine := h.genuine.importSecret

theorem importAddress (h : Sound K m) {accountName hint : String} {passHash : H256}
    (halone : m.Alone u a) : Sound K (m.importAddress u accountName a passHash hint) where
  inverse := h.inverse.insert_iff.mpr halone
  has := by
    intro v b hv
    apply lookup_insert_eq_some.mpr
    by_cases heq : v = u
    · exact .inl ⟨heq, ((halone v b (h.has v b hv)).mp heq).symm⟩
    · exact .inr ⟨heq, h.has v b hv⟩
  genuine := h.genuine

theorem importExisting (h : Sound K m) (u : H128) (info pass hint : String) :
    Sound K (m.importExisting K u info pass hint) := by
  obtain ⟨hgenuine, hsecret⟩ := h.genuine.secret u pass
  have hhas : ∀ v b, (m.store.secret K u pass).2.Has v b → m.uuidLookup.lookup v = some b := by
    intro v b hv
    apply h.has
    rwa [SecretStore.Has, SecretStore.keys_secret] at hv
  unfold KeyManager.importExisting
  cases hkey : m.store.secret K u pass with
  | mk key store =>
    rw [hkey] at hgenuine hsecret hhas
    have hread : Sound K { m with store } := ⟨h.inverse, hhas, hgenuine⟩
    cases key with
    | none => exact hread
    | some key =>
      -- the pair is in the lookups already
      have hpair := h.has u _ (hsecret key rfl)
      have halone : m.Alone u (K.address key) := by
        intro v b hv
        refine ⟨fun heq => ?_, fun heq => h.inverse.unique (heq ▸ hv) hpair⟩
        exact Option.some.inj (hv.symm.trans (heq ▸ hpair))
      have hcached : Sound K (KeyManager.cachePassword K { m with store } pass) := ⟨h.inverse, hhas, hgenuine⟩
      dsimp only
      split_ifs
      · exact hread.importAddress halone
      · exact hcached.importAddress halone

/-- The pair of a killed address goes from both lookups. For an address that has none, the zero id
does. -/
theorem kill (h : Sound K m) (a : Address)
    (hzero : m.addrLookup.lookup a = none → m.uuidLookup.lookup 0 = none) :
    Sound K (m.kill a) ∧ (m.kill a).Gone a := by
  have hid : ∀ v b, m.uuidLookup.lookup v = some b →
      (v ≠ (m.addrLookup.lookup a).getD 0 ↔ b ≠ a) := by
    intro v b hv
    cases hlookup : m.addrLookup.lookup a with
    | none =>
      have hv0 : v ≠ 0 := fun heq => absurd ((hzero hlookup).symm.trans (heq ▸ hv)) (by simp)
      have hb : b ≠ a := fun heq => absurd (hlookup.symm.trans (heq ▸ (h.inverse v b).mp hv)) (by simp)
      exact iff_of_true hv0 hb
    | some u =>
      have hu := (h.inverse u a).mpr hlookup
      refine not_congr ⟨fun heq => ?_, fun heq => h.inverse.unique (heq ▸ hv) hu⟩
      exact Option.some.inj (hv.symm.trans (heq ▸ hu))
  have hnone : ∀ v, ¬ (m.kill a).store.Has v a := by
    intro v hv
    obtain ⟨hne, hv⟩ := SecretStore.has_kill.mp hv
    exact (hid v a (h.has v a hv)).mp hne rfl
  have hinfo : a ∉ (m.kill a).keyInfo := fun ha => (AList.mem_erase.mp ha).1 rfl
  have haddresses : a ∉ (m.kill a).store.addresses := fun ha => by
    obtain ⟨v, hv⟩ := SecretStore.mem_addresses.mp ha
    exact hnone v hv
  refine ⟨⟨fun v b => ?_, fun v b hv => ?_, h.genuine.kill⟩, ?_, ?_, hnone⟩
  · refine lookup_erase_eq_some.trans (Iff.trans ?_ lookup_erase_eq_some.symm)
    rw [← h.inverse v b]
    exact and_congr_left fun hv => hid v b hv
  · obtain ⟨hne, hv⟩ := SecretStore.has_kill.mp hv
    exact lookup_erase_eq_some.mpr ⟨hne, h.has v b hv⟩
  · intro ha
    obtain ha | ha := mem_append.mp (mem_filter.mp ha).1
    · exact hinfo (AList.mem_keys.mpr ha)
    · exact haddresses ha
  · simp [hasAccount, hinfo, haddresses]

end Sound

/-! Sequences of calls. -/

variable (K) in
/-- A pair of an id and an address that is put into the lookups is alone there, and an address
without a pair is killed only if the zero id has none. -/
def Call.Single (m : KeyManager C) : Call → Prop
  | importSecret uuid s .. => m.Alone uuid (K.address s)
  | importExisting .. => True
  | importAddress uuid _ a .. => m.Alone uuid a
  | kill a => m.addrLookup.lookup a = none → m.uuidLookup.lookup 0 = none

def Call.Kills (m : KeyManager C) : Call → Prop
  | kill a => m.Gone a
  | _ => True

namespace Sound

theorem exec (h : Sound K m) {c : Call} (hsingle : c.Single K m) :
    Sound K (c.exec K m) ∧ c.Kills (c.exec K m) := by
  cases c with
  | importSecret u s accountName pass hint => exact ⟨h.importSecret hsingle, trivial⟩
  | importExisting u info pass hint => exact ⟨h.importExisting u info pass hint, trivial⟩
  | importAddress u accountName a passHash hint => exact ⟨h.importAddress hsingle, trivial⟩
  | kill a => exact h.kill a hsingle

end Sound

/-! The constructor. -/

section
variable {es : List (Sigma fun _ : H128 => EncryptedKey C)}

end

def plainCrypto : KeyCrypto (Bytes × String) where
  address s := BitVec.ofNat 160 (BigEndian.value s)
  encrypt s p := (s, p)
  decrypt c q := if q = c.2 then some c.1 else none
  hashPassword p := BitVec.ofNat 256 p.length
  decrypt_encrypt := by
    intro s p q t h
    split_ifs at h
    exact (Option.some.inj h).symm

end KeyManager
end Vapory
