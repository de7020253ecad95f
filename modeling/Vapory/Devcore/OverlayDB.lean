import Mathlib.Data.List.AList
import Vapory.Devcore.FixedHash

/-! `MemoryDB.cpp` and `OverlayDB.cpp`: nodes with reference counts in memory, over a database on
disk. -/
namespace Vapory
open List BigEndian

/-- What is read after the pairs of a batch were put. -/
def written (read : Bytes → Bytes) (batch : List (Bytes × Bytes)) : Bytes → Bytes :=
  batch.foldl (fun read p => Function.update read p.1 p.2) read

/-- A database with the states `D`: `Get` gives nothing for a key that it does not have, and `Write`
the status besides. A batch is written as a whole or not at all, and not without an error then. -/
structure LevelDB (D : Type) where
  get : D → Bytes → Bytes
  write : D → List (Bytes × Bytes) → Bool × D
  get_write : ∀ d batch, get (write d batch).2 = written (get d) batch ∨
    (write d batch).1 = false ∧ get (write d batch).2 = get d

structure OverlayDB (D : Type) where
  enforceRefs : Bool
  main : AList fun _ : H256 => Bytes × BitVec 32
  aux : AList fun _ : H256 => Bytes × Bool
  db : Option D

namespace OverlayDB
variable {D : Type} (L : LevelDB D)

def key (h : H256) : Bytes := fixed 32 h.toNat

def auxKey (h : H256) : Bytes := key h ++ [255]

def disk (s : OverlayDB D) (key : Bytes) : Bytes := (s.db.map fun db => L.get db key).getD []

/-- `MemoryDB::lookup`. -/
def memLookup (s : OverlayDB D) (h : H256) : Bytes :=
  match s.main.lookup h with
  | some (v, refs) => if !s.enforceRefs || 0 < refs then v else []
  | none => []

def lookup (s : OverlayDB D) (h : H256) : Bytes :=
  let ret := s.memLookup h
  if ret = [] then s.disk L (key h) else ret

/-- How often the node is held in memory, as an `unsigned`. -/
def refs (s : OverlayDB D) (h : H256) : BitVec 32 := ((s.main.lookup h).map Prod.snd).getD 0

def insert (s : OverlayDB D) (h : H256) (v : Bytes) : OverlayDB D :=
  { s with main := s.main.insert h (v, s.refs h + 1) }

def kill (s : OverlayDB D) (h : H256) : OverlayDB D :=
  match s.main.lookup h with
  | some (v, refs) => if 0 < refs then { s with main := s.main.insert h (v, refs - 1) } else s
  | none => s

def insertAux (s : OverlayDB D) (h : H256) (v : Bytes) : OverlayDB D :=
  { s with aux := s.aux.insert h (v, true) }

def removeAux (s : OverlayDB D) (h : H256) : OverlayDB D :=
  { s with aux := s.aux.insert h (((s.aux.lookup h).map Prod.fst).getD [], false) }

/-- `WriteBatch` of `commit`. -/
def batch (s : OverlayDB D) : List (Bytes × Bytes) :=
  (s.main.entries.filter fun e => e.2.2 ≠ 0).map (fun e => (key e.1, e.2.1)) ++
    (s.aux.entries.filter fun e => e.2.2).map fun e => (auxKey e.1, e.2.1)

/-- The loop of `commit` with so many tries, after which the process ends. -/
def tries (batch : List (Bytes × Bytes)) : ℕ → D → Option D
  | 0, _ => none
  | n + 1, db =>
    if (L.write db batch).1 then some (L.write db batch).2 else tries batch n (L.write db batch).2

def commit (s : OverlayDB D) : Option (OverlayDB D) :=
  match s.db with
  | some db => (tries L s.batch 10 db).map fun db => ⟨s.enforceRefs, ∅, ∅, some db⟩
  | none => some s

/-- The other data is not taken back. -/
def rollback (s : OverlayDB D) : OverlayDB D := { s with main := ∅ }

inductive Op where
  | insert (h : H256) (v : Bytes)
  | kill (h : H256)
  | insertAux (h : H256) (v : Bytes)
  | removeAux (h : H256)
  | commit
  | rollback

def step (s : OverlayDB D) : Op → Option (OverlayDB D)
  | .insert h v => some (s.insert h v)
  | .kill h => some (s.kill h)
  | .insertAux h v => some (s.insertAux h v)
  | .removeAux h => some (s.removeAux h)
  | .commit => s.commit L
  | .rollback => some s.rollback

/-- The operations, unless the process ends in one of them. -/
def run : OverlayDB D → List Op → Option (OverlayDB D)
  | s, [] => some s
  | s, op :: ops => (s.step L op).bind fun s => run s ops

/-- A database that was just opened. -/
def opened (enforceRefs : Bool) (db : D) : OverlayDB D := ⟨enforceRefs, ∅, ∅, some db⟩

theorem key_injective : Function.Injective key := by
  intro h h' he
  have hvalue := congrArg value he
  rw [key, key, value_fixed h.isLt, value_fixed h'.isLt] at hvalue
  exact BitVec.eq_of_toNat_eq hvalue

theorem auxKey_ne_key (h h' : H256) : auxKey h ≠ key h' := by
  intro he
  simpa [auxKey, key] using congrArg List.length he

section
variable {batch : List (Bytes × Bytes)} {k v : Bytes}

theorem written_apply {read : Bytes → Bytes} (hall : ∀ p ∈ batch, p.1 = k → p.2 = v)
    (h : read k = v ∨ ∃ p ∈ batch, p.1 = k) : written read batch k = v := by
  induction batch generalizing read with
  | nil => simpa [written] using h
  | cons p batch ih =>
    obtain ⟨hp, hall⟩ := forall_mem_cons.mp hall
    refine ih hall ?_
    by_cases hk : p.1 = k
    · rw [← hk]
      exact .inl ((Function.update_self ..).trans (hp hk))
    · exact h.imp (Function.update_of_ne (Ne.symm hk) ..).trans fun hq => by simpa [hk] using hq

/-- A batch that is tried several times and written in the end is read back. -/
theorem get_of_tries {n : ℕ} {db db' : D} (htries : tries L batch n db = some db')
    (hall : ∀ p ∈ batch, p.1 = k → p.2 = v) (h : L.get db k = v ∨ ∃ p ∈ batch, p.1 = k) :
    L.get db' k = v := by
  induction n generalizing db with
  | zero => cases htries
  | succ n ih =>
    unfold tries at htries
    have hwrite := L.get_write db batch
    split_ifs at htries with hok
    · obtain rfl := Option.some.inj htries
      rw [hwrite.resolve_right fun hfailed => absurd hok (by simp [hfailed.1])]
      exact written_apply hall h
    · refine ih htries ?_
      rcases hwrite with hwritten | ⟨-, hsame⟩
      · rw [hwritten]
        exact .inl (written_apply hall h)
      · rwa [hsame]

end

/-- In memory the node has no other value, and there is a database. -/
structure Valued (s : OverlayDB D) (h : H256) (v : Bytes) : Prop where
  value : ∀ e, s.main.lookup h = some e → e.1 = v
  db : s.db.isSome = true

variable {L} {s s' : OverlayDB D} {h : H256} {v : Bytes}

theorem Valued.batch (hs : s.Valued h v) : ∀ p ∈ s.batch, p.1 = key h → p.2 = v := by
  intro p hp hk
  rcases mem_append.mp hp with hp | hp
  · obtain ⟨e, he, rfl⟩ := mem_map.mp hp
    obtain rfl := key_injective hk
    exact hs.value e.2 (AList.mem_lookup_iff.mpr (mem_filter.mp he).1)
  · obtain ⟨e, -, rfl⟩ := mem_map.mp hp
    exact absurd hk (auxKey_ne_key _ _)

theorem Valued.commit (hs : s.Valued h v) (hcommit : s.commit L = some s') :
    s'.Valued h v ∧ (s.disk L (key h) = v ∨ s.refs h ≠ 0 → s'.disk L (key h) = v) := by
  obtain ⟨db, hdb⟩ := Option.isSome_iff_exists.mp hs.db
  rw [OverlayDB.commit, hdb] at hcommit
  obtain ⟨db', htries, rfl⟩ := Option.map_eq_some_iff.mp hcommit
  refine ⟨⟨fun e he => by simp at he, rfl⟩, fun hheld => ?_⟩
  refine get_of_tries L htries hs.batch (hheld.imp (fun hd => ?_) fun hrefs => ?_)
  · rw [← hd, disk, hdb]
    rfl
  · unfold refs at hrefs
    cases he : s.main.lookup h with
    | none => simp [he] at hrefs
    | some e =>
      have hput : ⟨h, e⟩ ∈ s.main.entries.filter fun e => e.2.2 ≠ 0 :=
        mem_filter.mpr ⟨AList.mem_lookup_iff.mp he, by simpa [he] using hrefs⟩
      exact ⟨(key h, e.1), mem_append_left _ (mem_map_of_mem hput), rfl⟩

theorem Valued.put (hs : s.Valued h v) {h' : H256} {e : Bytes × BitVec 32} (he : h' = h → e.1 = v) :
    Valued { s with main := s.main.insert h' e } h v := by
  refine ⟨fun e' he' => ?_, hs.db⟩
  by_cases hh : h = h'
  · subst hh
    obtain rfl := Option.some.inj ((AList.lookup_insert _).symm.trans he')
    exact he rfl
  · exact hs.value e' ((AList.lookup_insert_ne hh).symm.trans he')

theorem Valued.kill (hs : s.Valued h v) (h' : H256) : (s.kill h').Valued h v := by
  unfold OverlayDB.kill
  split
  · rename_i w refs hw
    have hvalue (he : h' = h) : w = v := hs.value (w, refs) (he ▸ hw)
    split_ifs
    · exact hs.put hvalue
    · exact hs
  · exact hs

theorem disk_kill (s : OverlayDB D) (h : H256) : (s.kill h).disk L = s.disk L := by
  unfold OverlayDB.kill
  split
  · split_ifs <;> rfl
  · rfl

theorem Valued.step (hs : s.Valued h v) {op : Op} (hop : ∀ w, op = .insert h w → w = v)
    (hstep : s.step L op = some s') :
    s'.Valued h v ∧ (s.disk L (key h) = v → s'.disk L (key h) = v) := by
  cases op with
  | insert h' w =>
    obtain rfl := Option.some.inj hstep
    exact ⟨hs.put fun he => hop w (he ▸ rfl), id⟩
  | kill h' =>
    obtain rfl := Option.some.inj hstep
    rw [disk_kill]
    exact ⟨hs.kill h', id⟩
  | insertAux h' w =>
    obtain rfl := Option.some.inj hstep
    exact ⟨⟨hs.value, hs.db⟩, id⟩
  | removeAux h' =>
    obtain rfl := Option.some.inj hstep
    exact ⟨⟨hs.value, hs.db⟩, id⟩
  | commit =>
    obtain ⟨hvalued, hdisk⟩ := hs.commit hstep
    exact ⟨hvalued, fun hd => hdisk (.inl hd)⟩
  | rollback =>
    obtain rfl := Option.some.inj hstep
    exact ⟨⟨fun e he => by simp [rollback] at he, hs.db⟩, id⟩

theorem Valued.run (hs : s.Valued h v) {ops : List Op} (hops : ∀ w, .insert h w ∈ ops → w = v)
    (hrun : s.run L ops = some s') :
    s'.Valued h v ∧ (s.disk L (key h) = v → s'.disk L (key h) = v) := by
  induction ops generalizing s with
  | nil =>
    obtain rfl := Option.some.inj hrun
    exact ⟨hs, id⟩
  | cons op ops ih =>
    obtain ⟨s₁, hstep, hrest⟩ := Option.bind_eq_some_iff.mp hrun
    obtain ⟨hs₁, hdisk⟩ := hs.step (fun w hw => hops w (hw ▸ mem_cons_self)) hstep
    obtain ⟨hs', hdisk'⟩ := ih hs₁ (fun w hw => hops w (mem_cons_of_mem _ hw)) hrest
    exact ⟨hs', fun hd => hdisk' (hdisk hd)⟩

theorem Valued.lookup (hs : s.Valued h v) (hd : s.disk L (key h) = v) : s.lookup L h = v := by
  unfold OverlayDB.lookup memLookup
  cases he : s.main.lookup h with
  | none => simpa using hd
  | some e =>
    have hv := hs.value e he
    dsimp only
    split_ifs <;> simp_all

/-- A node that is held when there is a commit is found ever after, whatever is killed, taken back
or committed then, as long as the process does not end, and also by one who opens the database anew.
A node always has the same value, since its hash is that of the value. -/
theorem lookup_of_committed (L : LevelDB D) (db : D) (enforceRefs : Bool) (before after : List Op)
    {h : H256} {v : Bytes} {s s' : OverlayDB D}
    (hvalue : ∀ w, .insert h w ∈ before ++ after → w = v)
    (hbefore : (opened enforceRefs db).run L before = some s) (hheld : s.refs h ≠ 0)
    (hafter : s.run L (.commit :: after) = some s') :
    s'.lookup L h = v ∧ ∀ db', s'.db = some db' → (opened enforceRefs db').lookup L h = v := by
  have hopened : (opened enforceRefs db).Valued h v := ⟨fun e he => by simp [opened] at he, rfl⟩
  have hs := (hopened.run (fun w hw => hvalue w (mem_append_left _ hw)) hbefore).1
  obtain ⟨s₁, hcommit, hrest⟩ := Option.bind_eq_some_iff.mp hafter
  obtain ⟨hs₁, hcommitted⟩ := hs.commit hcommit
  obtain ⟨hs', hdisk⟩ := hs₁.run (fun w hw => hvalue w (mem_append_right _ hw)) hrest
  have hd := hdisk (hcommitted (.inr hheld))
  refine ⟨hs'.lookup hd, fun db' hdb' => ?_⟩
  rw [disk, hdb'] at hd
  exact hd

/-- A database whose next writes have the status that is listed. -/
def failingDB : LevelDB (List Bool × (Bytes → Bytes)) where
  get d := d.2
  write d batch := (d.1.headD true, d.1.tail, if d.1.headD true then written d.2 batch else d.2)
  get_write d batch := by
    cases d.1.headD true with
    | true => exact .inl rfl
    | false => exact .inr ⟨rfl, rfl⟩

def heldDB : OverlayDB (List Bool × (Bytes → Bytes)) :=
  (opened true ([false, false], fun _ => [])).insert 7 [1, 2]

def killingOps : List Op := [.insertAux 7 [3], .insert 7 [1, 2], .kill 7, .kill 7, .commit]

/-- The first write fails twice, the node is killed after the commit, and other data has the same
hash. -/
theorem lookup_of_committed_killed :
    ∃ s', heldDB.run failingDB (.commit :: killingOps) = some s' ∧ s'.lookup failingDB 7 = [1, 2] := by
  have hsome : (heldDB.run failingDB (.commit :: killingOps)).isSome = true := by decide +kernel
  obtain ⟨s', hs'⟩ := Option.isSome_iff_exists.mp hsome
  have hheld : heldDB.refs 7 ≠ 0 := by decide
  exact ⟨s', hs', (lookup_of_committed failingDB ([false, false], fun _ => []) true
    [.insert 7 [1, 2]] killingOps (by simp [killingOps]) rfl hheld hs').1⟩

end OverlayDB
end Vapory
