import Mathlib.Data.List.TakeWhile
import Vapory.Devcore.RLPWalk

/-! `operator[]` on any bytes: what a new object gives, and what an object gives whose cache is that
of earlier accesses. -/
namespace Vapory
open List Vapory.Except Nat

namespace RLP
open BytesRef

section History
variable {r₀ r : RLP} {pl : BytesRef} {e i j k n : ℕ} {err : RLPError} {is : List ℕ}

def accesses (r : RLP) (is : List ℕ) : RLP := is.foldl (fun r i => (r.index i).2) r

/-- Apart from accesses to item `n` itself, the latest access was behind it. -/
def Overran (is : List ℕ) (n : ℕ) : Prop := (is.filter (· ≠ n)).getLast?.any (n < ·) = true

instance : Decidable (Overran is n) := inferInstanceAs (Decidable (_ = true))

/-- Item `n` is the last one before a malformed one. -/
def Breaks (pl : BytesRef) (n : ℕ) : Prop :=
  (∃ item, itemAt pl n = .ok item) ∧ ∃ err, itemAt pl (n + 1) = .error err

theorem overran_concat : Overran (is ++ [i]) n ↔ if i = n then Overran is n else n < i := by
  by_cases h : i = n
  · rw [if_pos h]
    simp [Overran, h]
  · rw [if_neg h]
    simp [Overran, h]

theorem Breaks.le {item : BytesRef} (h : Breaks pl n) (hat : itemAt pl i = .ok item) : i ≤ n := by
  obtain ⟨-, err, herr⟩ := h
  by_contra hlt
  cases hat.symm.trans (itemAt_error_mono herr (not_le.mp hlt))

inductive Recent (r₀ : RLP) (pl : BytesRef) (is : List ℕ) : RLP → Prop where
  | new (h : is = [] ∨ ∃ err, itemSize pl 0 = .error err) : Recent r₀ pl is r₀
  | cell {j e k : ℕ} (hs : itemStart pl j = .ok e) (hk : itemSize pl e = .ok k) (hne : is ≠ [])
      (hfine : ∀ n, Breaks pl n → ¬ Overran is n) : Recent r₀ pl is (cell r₀ pl j e k)
  | torn {j e k : ℕ} {err : RLPError} (hs : itemStart pl j = .ok e) (hk : itemSize pl e = .ok k)
      (herr : itemSize pl (e + k) = .error err) (hover : Overran is j) :
      Recent r₀ pl is (torn r₀ pl j (e + k))

/-- A walk that starts at an item leaves the cache right, or torn with the access as the one that
overran. -/
theorem Accessed.recent {w : Except RLPError RLP × RLP} (h : Accessed r₀ pl i w)
    (hfine : Breaks pl i → ¬ Overran is i) : Recent r₀ pl (is ++ [i]) w.2 := by
  cases h with
  | found hs hk hat hji =>
    refine .cell hs hk (append_ne_nil_of_right_ne_nil _ (cons_ne_nil _ _)) fun n hn => ?_
    have hle : i ≤ n := hn.le hat
    rw [overran_concat]
    split_ifs with hin
    · obtain rfl := hin
      exact hfine hn
    · omega
  | broke hs hk herr hat hji =>
    refine .torn hs hk herr ?_
    rw [overran_concat, if_neg (by omega)]
    exact hji

/-- The index that marks the empty cache: a new object looks at nothing then. -/
theorem index_sizeMax (h : r₀ = { data := r₀.data }) :
    r₀.index sizeMax = (.ok { data := .null [] }, r₀) := by
  rw [h]
  generalize r₀.data = d
  have hlast : ¬ sizeMax < ({ data := d } : RLP).lastIndex := lt_irrefl sizeMax
  have hgo : ¬ (({ data := d } : RLP).lastIndex < sizeMax ∧
    ({ data := d } : RLP).lastItem.count ≠ 0) :=
    fun h => hlast h.1
  have hparse : parse ({ data := d } : RLP).lastItem .throwIfTooSmall = .ok { data := .null [] } := rfl
  simp [index, indexLoop, hparse]

theorem accesses_dropWhile (h : r₀ = { data := r₀.data }) (is : List ℕ) :
    r₀.accesses (is.dropWhile (· = sizeMax)) = r₀.accesses is := by
  induction is with
  | nil => rfl
  | cons i is ih =>
    by_cases hi : i = sizeMax
    · rw [dropWhile_cons, if_pos (decide_eq_true hi), ih, hi, accesses, accesses, foldl_cons,
        index_sizeMax h]
    · rw [dropWhile_cons, if_neg (by simpa using hi)]

theorem Recent.index (h : Readable r₀ pl) (hr : Recent r₀ pl is r) (hi : i ≤ sizeMax)
    (hfirst : is = [] → i < sizeMax) : Recent r₀ pl (is ++ [i]) (r.index i).2 := by
  cases hr with
  | new hnew =>
    rcases eq_or_lt_of_le hi with rfl | hi
    · rw [index_sizeMax h.eq]
      exact .new (.inr (hnew.resolve_left fun hnil => lt_irrefl _ (hfirst hnil)))
    have hlast : i < r₀.lastIndex := by
      rw [h.eq]
      exact hi
    cases hk : itemSize pl 0 with
    | error err =>
      rw [index_of_first_error h hlast hk]
      exact .new (.inr ⟨err, hk⟩)
    | ok k =>
      have his : is = [] := by
        refine hnew.elim id ?_
        rintro ⟨err, herr⟩
        cases hk.symm.trans herr
      refine (accessed_first h hi hk).recent fun _ => ?_
      rw [his]
      exact Bool.false_ne_true
  | @cell j e k hs hk hne hfine =>
    rcases lt_or_ge i j with hij | hji
    · obtain ⟨k₀, hk₀⟩ := exists_first hs hk
      exact (accessed_restart (r := RLP.cell r₀ pl j e k) h rfl hij hk₀).recent (hfine i)
    · exact (accessed_forward h hs hk hji).recent (hfine i)
  | @torn j e k err hs hk herr hover =>
    rcases lt_or_ge i j with hij | hji
    · obtain ⟨k₀, hk₀⟩ := exists_first hs hk
      refine (accessed_restart (r := RLP.torn r₀ pl j (e + k)) h rfl hij hk₀).recent fun hbreaks => ?_
      have hle : j ≤ i := hbreaks.le (itemAt_eq hs hk)
      omega
    · rw [index_torn h herr hji]
      refine .torn hs hk herr ?_
      rw [overran_concat]
      split_ifs with hin
      · exact hover
      · omega

theorem recent_accesses (h : Readable r₀ pl) (his : ∀ i ∈ is, i ≤ sizeMax)
    (hhead : is.head? ≠ some sizeMax) : Recent r₀ pl is (r₀.accesses is) := by
  induction is using List.reverseRecOn with
  | nil => exact .new (.inl rfl)
  | append_singleton is i ih =>
    have hi := his i (mem_append_right _ (mem_singleton_self i))
    rw [accesses, foldl_append]
    cases is with
    | nil =>
      exact Recent.index h (.new (.inl rfl)) hi fun _ => hi.lt_of_ne fun heq => hhead (by rw [heq]; rfl)
    | cons j is =>
      exact (ih (fun j hj => his j (mem_append_left _ hj)) hhead).index h hi fun hnil => by cases hnil

/-- An access goes wrong at the last item before a malformed one, once a later one was asked for. -/
theorem Recent.result_iff (h : Readable r₀ pl) (hr : Recent r₀ pl is r) (hi : i < sizeMax) :
    (r.index i).1 = (r₀.index i).1 ↔ ¬ (Breaks pl i ∧ Overran is i) := by
  have hnew := index_new h hi
  cases hr with
  | new hnew =>
    refine iff_of_true rfl ?_
    rintro ⟨⟨⟨item, hat⟩, -⟩, hover⟩
    rcases hnew with rfl | ⟨err, herr⟩
    · exact Bool.false_ne_true hover
    · cases hat.symm.trans (itemAt_error rfl herr (zero_le i))
  | @cell j e k hs hk hne hfine =>
    refine iff_of_true ?_ fun hbad => hfine i hbad.1 hbad.2
    rw [hnew]
    rcases lt_or_ge i j with hij | hji
    · obtain ⟨k₀, hk₀⟩ := exists_first hs hk
      exact (accessed_restart (r := RLP.cell r₀ pl j e k) h rfl hij hk₀).result
    · exact (accessed_forward h hs hk hji).result
  | @torn j e k err hs hk herr hover =>
    have hnext (hji : j < i) : itemAt pl i = .error err := itemAt_error (itemStart_succ hs hk) herr hji
    rcases lt_trichotomy i j with hij | rfl | hji
    · obtain ⟨k₀, hk₀⟩ := exists_first hs hk
      refine iff_of_true ?_ fun hbad => ?_
      · rw [hnew]
        exact (accessed_restart (r := RLP.torn r₀ pl j (e + k)) h rfl hij hk₀).result
      · exact absurd (hbad.1.le (itemAt_eq hs hk)) (by omega)
    · refine iff_of_false ?_ (not_not.mpr ⟨⟨⟨_, itemAt_eq hs hk⟩, err, ?_⟩, hover⟩)
      · rw [index_torn h herr le_rfl, hnew, itemAt_eq hs hk]
        intro hbad
        cases hbad
      · exact itemAt_error (itemStart_succ hs hk) herr le_rfl
    · refine iff_of_true ?_ ?_
      · rw [index_torn h herr hji.le, hnew, hnext hji]
        rfl
      · rintro ⟨⟨⟨item, hat⟩, -⟩, -⟩
        cases hat.symm.trans (hnext hji)

theorem le_itemStart (hsane : Sane pl) (hs : itemStart pl j = .ok e) (he : e < pl.count) : j ≤ e := by
  induction j generalizing e with
  | zero => exact zero_le e
  | succ j ih =>
    rw [itemStart] at hs
    obtain ⟨e', hs', hs⟩ := bind_eq_ok.mp hs
    obtain ⟨k, hk, hs⟩ := bind_eq_ok.mp hs
    obtain rfl : e' + k = e := Except.ok.inj hs
    have hpos := ((hsane.croppedFrom e').item hk).pos
    rw [count_croppedFrom hsane] at hpos
    have hk0 : 0 < k := hpos (by omega)
    have hj := ih hs' (by omega)
    omega

theorem Breaks.lt_count (hsane : Sane pl) (h : Breaks pl n) : n + 1 < pl.count := by
  obtain ⟨⟨item, hat⟩, err, herr⟩ := h
  obtain ⟨e, hs, hat⟩ := bind_eq_ok.mp hat
  obtain ⟨k, hk, hat⟩ := bind_eq_ok.mp hat
  have hnext := itemStart_succ hs hk
  have hlt : e + k < pl.count := by
    by_contra hle
    have hzero : (pl.croppedFrom (e + k)).count = 0 := by
      rw [count_croppedFrom hsane]
      omega
    cases (itemAt_eq hnext (sizeAsEncoded_of_count hzero)).symm.trans herr
  have hle : n + 1 ≤ e + k := le_itemStart hsane hnext hlt
  omega

theorem toBytes_of_itemAt_sizeMax {item : BytesRef} (h : Readable r₀ pl)
    (hat : itemAt pl sizeMax = .ok item) : item.toBytes = [] := by
  obtain ⟨e, hs, hat⟩ := Except.bind_eq_ok.mp hat
  obtain ⟨k, hk, hat⟩ := Except.bind_eq_ok.mp hat
  obtain rfl := Except.ok.inj hat
  have hend : pl.count ≤ e := by
    by_contra hlt
    have hle := le_itemStart h.sane hs (not_le.mp hlt)
    have := h.lt
    omega
  have hitem := (h.sane.croppedFrom e).item hk
  have hle := hitem.le
  rw [count_croppedFrom h.sane] at hle
  have hcount : ((pl.croppedFrom e).cropped 0 k).count = 0 := by
    rw [hitem.count]
    omega
  unfold BytesRef.toBytes
  split
  · rfl
  · rw [hcount, take_zero]

theorem exists_breaks (hfirst : ∃ item, itemAt pl 0 = .ok item) (herr : itemAt pl i = .error err) :
    ∃ n, Breaks pl n := by
  induction i generalizing err with
  | zero =>
    obtain ⟨item, hitem⟩ := hfirst
    cases hitem.symm.trans herr
  | succ i ih =>
    cases hat : itemAt pl i with
    | error err' => exact ih hat
    | ok item => exact ⟨i, ⟨item, hat⟩, err, herr⟩

/-- An object that was used walks for that index, too, and throws if an item is malformed. -/
theorem Recent.sizeMax_iff (h : Readable r₀ pl) (hr : Recent r₀ pl is r) :
    (r.index sizeMax).1.map (·.data.toBytes) = .ok [] ↔ ¬ (is ≠ [] ∧ ∃ n, Breaks pl n) := by
  have hnone {n : ℕ} (hn : Breaks pl n) : ∃ err, itemAt pl sizeMax = .error err := by
    have hlt := hn.lt_count h.sane
    have := h.lt
    obtain ⟨-, err, herr⟩ := hn
    exact ⟨err, itemAt_error_mono herr (by omega)⟩
  cases hr with
  | new hnew =>
    rw [index_sizeMax h.eq]
    refine iff_of_true rfl ?_
    rintro ⟨hne, n, ⟨item, hat⟩, -⟩
    obtain ⟨err, herr⟩ := hnew.resolve_left hne
    cases hat.symm.trans (itemAt_error rfl herr (zero_le n))
  | @cell j e k hs hk hne hfine =>
    obtain ⟨k₀, hk₀⟩ := exists_first hs hk
    have hresult : ((RLP.cell r₀ pl j e k).index sizeMax).1 =
        (itemAt pl sizeMax).map fun item => { data := item } := by
      rcases lt_or_ge sizeMax j with hij | hji
      · exact (accessed_restart (r := RLP.cell r₀ pl j e k) h rfl hij hk₀).result
      · exact (accessed_forward h hs hk hji).result
    rw [hresult]
    cases hat : itemAt pl sizeMax with
    | ok item =>
      refine iff_of_true (congrArg Except.ok (toBytes_of_itemAt_sizeMax h hat)) ?_
      rintro ⟨-, n, hn⟩
      obtain ⟨err, herr⟩ := hnone hn
      cases hat.symm.trans herr
    | error err =>
      exact iff_of_false (fun hbad => by cases hbad)
        (not_not.mpr ⟨hne, exists_breaks ⟨_, itemAt_eq rfl hk₀⟩ hat⟩)
  | @torn j e k err hs hk herr hover =>
    have hbreaks : Breaks pl j :=
      ⟨⟨_, itemAt_eq hs hk⟩, err, itemAt_error (itemStart_succ hs hk) herr le_rfl⟩
    have hlt := hbreaks.lt_count h.sane
    have := h.lt
    rw [index_torn h herr (by omega)]
    refine iff_of_false (fun hbad => by cases hbad) (not_not.mpr ⟨?_, j, hbreaks⟩)
    rintro rfl
    cases hover

/-- That an item is the last one before a malformed one can be seen on new objects. -/
theorem breaks_iff (h : Readable r₀ pl) (hi : i < sizeMax) :
    Breaks pl i ↔ (∃ item, (r₀.index i).1 = .ok item) ∧ ∃ err, (r₀.index (i + 1)).1 = .error err := by
  have hok : (∃ item, (r₀.index i).1 = .ok item) ↔ ∃ item, itemAt pl i = .ok item := by
    rw [index_new h hi]
    cases itemAt pl i with
    | ok item => simp [Except.map]
    | error err => simp [Except.map]
  rw [hok, Breaks]
  refine and_congr_right fun hthere => ?_
  rcases lt_or_ge (i + 1) sizeMax with hlt | hge
  · rw [index_new h hlt]
    cases itemAt pl (i + 1) with
    | ok item => simp [Except.map]
    | error err => simp [Except.map]
  · -- the index that marks the empty cache, far behind the last item
    have hmax : i + 1 = sizeMax := by omega
    have hlt := h.lt
    refine iff_of_false (fun herr => ?_) ?_
    · have := Breaks.lt_count h.sane ⟨hthere, herr⟩
      omega
    · rw [hmax, index_sizeMax h.eq]
      simp

end History

section Parsed
variable {b : Bytes} {s : Strictness} {r : RLP} {pl : BytesRef}

theorem sane_cropped {d : BytesRef} (h : Sane d) (i c : ℕ) :
    Sane (d.cropped i c) ∧ (d.cropped i c).count ≤ c := by
  cases h with
  | null buf => exact ⟨.null buf, zero_le c⟩
  | @window buf p n h =>
    by_cases hic : i + c ≤ n
    · rw [window_cropped buf p n hic]
      exact ⟨.window (by omega), le_rfl⟩
    · have hnull : (BytesRef.window buf p n).cropped i c = BytesRef.null buf := by
        simp [BytesRef.window, BytesRef.cropped, hic]
      rw [hnull]
      exact ⟨.null buf, zero_le c⟩

theorem eq_of_check_small {d : BytesRef} {r₁ : RLP}
    (h : (if s.failIfTooSmall then do
        let a ← r₁.actualSize
        if d.count < a then
          if s.throwOnFail then .error .undersizeRLP else pure { r₁ with data := .null d.buf }
        else pure r₁
      else pure r₁ : Except RLPError RLP) = .ok r) : r = r₁ ∨ r = { r₁ with data := .null d.buf } := by
  by_cases hon : s.failIfTooSmall = true
  · rw [if_pos hon] at h
    obtain ⟨a, -, h⟩ := bind_eq_ok.mp h
    split_ifs at h
    · exact .inr (Except.ok.inj h).symm
    · exact .inl (Except.ok.inj h).symm
  · rw [if_neg hon] at h
    exact .inl (Except.ok.inj h).symm

theorem eq_of_parse {d : BytesRef} (hr : parse d s = .ok r) : r = { data := d } ∨
    r = { data := .null d.buf } := by
  rw [parse] at hr
  by_cases hon : s.failIfTooBig = true
  · rw [if_pos hon] at hr
    obtain ⟨a, -, hr⟩ := bind_eq_ok.mp hr
    by_cases hbig : a < d.count
    · rw [if_pos hbig] at hr
      by_cases hthrow : s.throwOnFail = true
      · rw [if_pos hthrow] at hr
        cases hr
      · rw [if_neg hthrow] at hr
        exact .inr ((eq_of_check_small hr).elim id id)
    · rw [if_neg hbig] at hr
      exact eq_of_check_small hr
  · rw [if_neg hon] at hr
    exact eq_of_check_small hr

theorem sane_of_parse (hr : parse (.ofBytes b) s = .ok r) : r = { data := r.data } ∧ Sane r.data := by
  rcases eq_of_parse hr with rfl | rfl
  · exact ⟨rfl, .window (p := 0) (zero_add _).le⟩
  · exact ⟨rfl, .null b⟩

theorem length_lt_sizeMax {d : BytesRef} {l : ℕ} (hd : Sane d)
    (hl : ({ data := d } : RLP).length = .ok l) : l < sizeMax := by
  have hpos : 0 < sizeMax := by decide
  cases hd with
  | null buf =>
    obtain rfl : 0 = l := Except.ok.inj hl
    exact hpos
  | @window buf p n h =>
    by_cases hn : n = 0
    · subst hn
      obtain rfl : 0 = l := Except.ok.inj hl
      exact hpos
    · have hframed := framed_of_length h hn hl
      have := hframed.size_lt_sizeMax
      omega

theorem readable_of_parse (hr : parse (.ofBytes b) s = .ok r) (hpl : r.payload = .ok pl) :
    Readable r pl := by
  obtain ⟨heq, hsane⟩ := sane_of_parse hr
  obtain ⟨l, hl, hpay⟩ := bind_eq_ok.mp hpl
  rw [heq] at hl
  have hlt := length_lt_sizeMax hsane hl
  by_cases hcount : r.data.count < l
  · rw [if_pos hcount] at hpay
    cases hpay
  · rw [if_neg hcount] at hpay
    obtain rfl : r.data.cropped r.payloadOffset l = pl := Except.ok.inj hpay
    obtain ⟨hcropped, hle⟩ := sane_cropped hsane r.payloadOffset l
    exact ⟨heq, hpl, hcropped, by omega, by omega⟩

theorem index_of_payload_error {err : RLPError} {i : ℕ} (heq : r = { data := r.data })
    (hpl : r.payload = .error err) (hi : i < sizeMax) : r.index i = (.error err, r) := by
  have hlast : i < r.lastIndex := by
    rw [heq]
    exact hi
  simp only [index, if_pos hlast, hpl]
  rfl

theorem accesses_of_payload_error {err : RLPError} {is : List ℕ} (heq : r = { data := r.data })
    (hpl : r.payload = .error err) (his : ∀ i ∈ is, i ≤ sizeMax) : r.accesses is = r := by
  induction is with
  | nil => rfl
  | cons i is ih =>
    have hsame : (r.index i).2 = r := by
      rcases eq_or_lt_of_le (his i mem_cons_self) with rfl | hi
      · rw [index_sizeMax heq]
      · rw [index_of_payload_error heq hpl hi]
    rw [accesses, foldl_cons, hsame]
    exact ih fun j hj => his j (mem_cons_of_mem i hj)

/-- A new object can read item `n`, but not the next one. -/
def Tears (r : RLP) (n : ℕ) : Prop :=
  (∃ item, (r.index n).1 = .ok item) ∧ ∃ err, (r.index (n + 1)).1 = .error err

/-- An object that was used gives what a new one gives, unless the item is the last one before a
malformed one and the latest access to any other item was behind it. For the index that marks the
empty cache, by which no new object is used, both give an empty item unless an item is malformed. -/
theorem index_accesses_iff {is : List ℕ} (hr : parse (.ofBytes b) s = .ok r)
    (his : ∀ j ∈ is, j ≤ sizeMax) :
    (∀ i < sizeMax, ((r.accesses is).index i).1 = (r.index i).1 ↔
      ¬ (Tears r i ∧ Overran (is.dropWhile (· = sizeMax)) i)) ∧
    (((r.accesses is).index sizeMax).1.map (·.data.toBytes) =
        (r.index sizeMax).1.map (·.data.toBytes) ↔
      ¬ ((∃ j ∈ is, j ≠ sizeMax) ∧ ∃ n < sizeMax, Tears r n)) := by
  have heq := (sane_of_parse hr).1
  have hnew : (r.index sizeMax).1.map (·.data.toBytes) = .ok [] := by
    rw [index_sizeMax heq]
    rfl
  rw [hnew]
  cases hpl : r.payload with
  | ok pl =>
    have h := readable_of_parse hr hpl
    have hhead : (is.dropWhile (· = sizeMax)).head? ≠ some sizeMax := by
      intro hhead
      have hnot := head?_dropWhile_not (fun j => decide (j = sizeMax)) is
      rw [hhead] at hnot
      simp at hnot
    have hrecent := recent_accesses h (fun j hj => his j ((dropWhile_sublist _).subset hj)) hhead
    rw [accesses_dropWhile heq] at hrecent
    constructor
    · intro i hi
      rw [hrecent.result_iff h hi, breaks_iff h hi]
      rfl
    · have hused : is.dropWhile (· = sizeMax) ≠ [] ↔ ∃ j ∈ is, j ≠ sizeMax := by
        rw [ne_eq, dropWhile_eq_nil_iff]
        simp
      have hbreaks : (∃ n, Breaks pl n) ↔ ∃ n < sizeMax, Tears r n := by
        constructor
        · rintro ⟨n, hn⟩
          have hlt := hn.lt_count h.sane
          have := h.lt
          exact ⟨n, by omega, (breaks_iff h (by omega)).mp hn⟩
        · rintro ⟨n, hlt, hn⟩
          exact ⟨n, (breaks_iff h hlt).mpr hn⟩
      rw [hrecent.sizeMax_iff h, hused, hbreaks]
  | error err =>
    have hno (n : ℕ) (hn : n < sizeMax) : ¬ Tears r n := by
      rintro ⟨⟨item, hitem⟩, -⟩
      rw [index_of_payload_error heq hpl hn] at hitem
      cases hitem
    rw [accesses_of_payload_error heq hpl his]
    refine ⟨fun i hi => iff_of_true rfl fun hbad => hno i hi hbad.1, iff_of_true hnew ?_⟩
    rintro ⟨-, n, hn, hbad⟩
    exact hno n hn hbad

end Parsed

/-- The second item starts with the prefix of a string of one byte, which is not there. Asked for
it, the object forgets the first item too. -/
theorem index_forgets : ∃ r, parse (.ofBytes [0xc2, 0x00, 0x81]) .veryStrict = .ok r ∧
    r.isList = true ∧ (r.index 0).1 = .ok (view [0xc2, 0x00, 0x81] 1 1) ∧
    (r.index 1).1 = .error .badRLP ∧ ((r.accesses [1]).index 0).1 = .error .badRLP := by
  exact exists_ok_and (by decide +kernel)

theorem index_accesses_ok : ∃ r, parse (.ofBytes [0xc2, 0x00, 0x81]) .veryStrict = .ok r ∧
    ((r.accesses [1, 2, 0, 0]).index 1).1 = (r.index 1).1 := by
  obtain ⟨r, hr, hbad⟩ : ∃ r, parse (.ofBytes [0xc2, 0x00, 0x81]) .veryStrict = .ok r ∧
      (r.index 1).1 = .error .badRLP := exists_ok_and (by decide +kernel)
  refine ⟨r, hr, ((index_accesses_iff hr (by decide)).1 1 (by decide)).mpr ?_⟩
  rintro ⟨⟨⟨item, hitem⟩, -⟩, -⟩
  cases hbad.symm.trans hitem

section Specification
variable {buf b : Bytes} {q m e i : ℕ} {rs us : List RLP} {x : RLP}

theorem tiles_of_itemStart (hq : q + m ≤ buf.length) (hs : itemStart (window buf q m) i = .ok e) :
    e ≤ m ∧ ∃ rs, Tiles buf q e rs ∧ rs.length ≤ i ∧ (e < m → rs.length = i) := by
  induction i generalizing e with
  | zero =>
    obtain rfl : 0 = e := Except.ok.inj hs
    exact ⟨zero_le m, [], .nil q, le_rfl, fun _ => rfl⟩
  | succ i ih =>
    rw [itemStart] at hs
    obtain ⟨e', hs', hs⟩ := bind_eq_ok.mp hs
    obtain ⟨k, hk, hs⟩ := bind_eq_ok.mp hs
    obtain rfl : e' + k = e := Except.ok.inj hs
    obtain ⟨hle, rs, htiles, hlen, hfull⟩ := ih hs'
    rw [itemSize, window_croppedFrom _ _ _ hle] at hk
    obtain ⟨hsize, hkm⟩ := sizeAsEncoded_eq_ok.mp hk
    have hq' : q + e' + (m - e') ≤ buf.length := by omega
    rcases Nat.eq_zero_or_pos k with rfl | hpos
    · refine ⟨by omega, rs, htiles, by omega, fun hlt => ?_⟩
      have := actualSize_pos hq' (by omega) hkm hsize
      omega
    · refine ⟨by omega, rs ++ [view buf (q + e') k], ?_, ?_, fun _ => ?_⟩
      · have hone : Tiles buf (q + e') k [view buf (q + e') k] :=
          .cons hpos (actualSize_crop hq' hkm hsize) (.nil _)
        exact tiles_append.mpr ⟨e', k, rfl, htiles, hone⟩
      · rw [length_append, length_singleton]
        omega
      · rw [length_append, length_singleton, hfull (by omega)]

/-- Item `i` of the items that the bytes in view start with. -/
def HasItem (d : BytesRef) (i : ℕ) (x : RLP) : Prop :=
  ∃ q e rs, d.ptr = some q ∧ e ≤ d.count ∧ Tiles d.buf q e rs ∧ rs[i]? = some x

/-- The bytes in view are items, `i` of them at most. -/
def EndsWithin (d : BytesRef) (i : ℕ) : Prop :=
  d.count = 0 ∨ ∃ q rs, d.ptr = some q ∧ Tiles d.buf q d.count rs ∧ rs.length ≤ i

theorem itemAt_eq_ok {pl item : BytesRef} : itemAt pl i = .ok item ↔
    ∃ e k, itemStart pl i = .ok e ∧ itemSize pl e = .ok k ∧ item = (pl.croppedFrom e).cropped 0 k := by
  constructor
  · intro h
    obtain ⟨e, hs, h⟩ := bind_eq_ok.mp h
    obtain ⟨k, hk, h⟩ := bind_eq_ok.mp h
    exact ⟨e, k, hs, hk, (Except.ok.inj h).symm⟩
  · rintro ⟨e, k, hs, hk, rfl⟩
    exact itemAt_eq hs hk

theorem hasItem_iff {pl : BytesRef} (hsane : Sane pl) :
    HasItem pl i x ↔ ∃ item, itemAt pl i = .ok item ∧ item.count ≠ 0 ∧ x = { data := item } := by
  constructor
  · rintro ⟨q, e, rs, hptr, hle, htiles, hx⟩
    cases hsane with
    | null buf => cases hptr
    | @window buf p m hp =>
      obtain rfl : p = q := Option.some.inj hptr
      obtain ⟨s, k, hview, hk, hat⟩ := itemAt_of_tiles hp hle htiles hx
      exact ⟨_, hat, hk.ne', hview⟩
  · rintro ⟨item, hat, hcount, rfl⟩
    obtain ⟨e, k, hs, hk, rfl⟩ := itemAt_eq_ok.mp hat
    have hitem := (hsane.croppedFrom e).item hk
    rw [hitem.count] at hcount
    cases hsane with
    | null buf => exact absurd (le_zero.mp hitem.le) hcount
    | @window buf p m hp =>
      obtain ⟨hle, rs, htiles, -, hfull⟩ := tiles_of_itemStart hp hs
      have hkm := hitem.le
      rw [window_croppedFrom _ _ _ hle] at hkm
      have hkm : k ≤ m - e := hkm
      have hview : ((BytesRef.window buf p m).croppedFrom e).cropped 0 k = BytesRef.window buf (p + e) k := by
        rw [window_croppedFrom _ _ _ hle, window_cropped _ _ _ (by omega)]
        rfl
      rw [itemSize, window_croppedFrom _ _ _ hle] at hk
      have hsize := actualSize_crop (by omega) hkm (sizeAsEncoded_eq_ok.mp hk).1
      have hone : Tiles buf (p + e) k [view buf (p + e) k] := .cons (by omega) hsize (.nil _)
      have hem : e + k ≤ m := by omega
      refine ⟨p, e + k, rs ++ [view buf (p + e) k], rfl, hem, tiles_append.mpr ⟨e, k, rfl, htiles, hone⟩, ?_⟩
      rw [hview, ← hfull (by omega)]
      exact List.getElem?_concat_length

theorem hasItem_of_itemAt {pl item : BytesRef} (hsane : Sane pl) (hat : itemAt pl i = .ok item) :
    HasItem pl i x ↔ item.count ≠ 0 ∧ x = { data := item } := by
  rw [hasItem_iff hsane]
  constructor
  · rintro ⟨item', hok, h⟩
    obtain rfl := Except.ok.inj (hat.symm.trans hok)
    exact h
  · intro h
    exact ⟨item, hat, h⟩

theorem endsWithin_iff {pl : BytesRef} (hsane : Sane pl) :
    EndsWithin pl i ↔ ∃ item, itemAt pl i = .ok item ∧ item.count = 0 := by
  constructor
  · rintro (hzero | ⟨q, rs, hptr, htiles, hlen⟩)
    · have hfirst : itemSize pl 0 = .ok 0 := by
        rw [itemSize, hsane.croppedFrom_zero]
        exact sizeAsEncoded_of_count hzero
      exact ⟨_, itemAt_end rfl hfirst (zero_le i), ((hsane.croppedFrom 0).item hfirst).count⟩
    · cases hsane with
      | null buf => cases hptr
      | @window buf p m hp =>
        obtain rfl : p = q := Option.some.inj hptr
        exact ⟨_, itemAt_past_tiles hp htiles hlen, rfl⟩
  · rintro ⟨item, hat, hcount⟩
    obtain ⟨e, k, hs, hk, rfl⟩ := itemAt_eq_ok.mp hat
    have hitem := (hsane.croppedFrom e).item hk
    have hpos := hitem.pos
    rw [hitem.count] at hcount
    rw [count_croppedFrom hsane] at hpos
    have hend : pl.count ≤ e := by
      by_contra hlt
      exact absurd hcount (hpos (by omega)).ne'
    cases hsane with
    | null buf => exact .inl rfl
    | @window buf p m hp =>
      obtain ⟨hle, rs, htiles, hlen, -⟩ := tiles_of_itemStart hp hs
      have hend : m ≤ e := hend
      obtain rfl : e = m := by omega
      exact .inr ⟨p, rs, rfl, htiles, hlen⟩

/-- What indexing is for: item `i` of a list that has one, and otherwise the null object. -/
structure Answers (r : RLP) (pl : BytesRef) (i : ℕ) (x : RLP) : Prop where
  item : r.isList = true → ∀ y, HasItem pl i y → x = y
  null : ¬ (r.isList = true ∧ ∃ y, HasItem pl i y) → x.isNull = true

theorem exists_payload {r : RLP} (hr : parse (.ofBytes b) .veryStrict = .ok r) :
    ∃ pl, r.payload = .ok pl := by
  rw [ofBytes_eq_window] at hr
  obtain ⟨rfl, hsize⟩ := parse_veryStrict_eq_ok.mp hr
  by_cases hn : b.length = 0
  · refine ⟨(window b 0 b.length).cropped (view b 0 b.length).payloadOffset 0, ?_⟩
    rw [payload, length, isNull_view, hn]
    rfl
  · obtain ⟨l, off, m, hframed, hsum⟩ := (actualSize_iff (zero_add _).le hn le_rfl).mp hsize
    exact ⟨_, payload_view hframed hsum.le⟩

/-- Any object is indexed as if it were a list, and a malformed item that is passed throws. So the
answer is right for an item of a list, and behind the last item of a payload that can be read as
items. -/
theorem index_answers_iff {r : RLP} (hr : parse (.ofBytes b) .veryStrict = .ok r) (hi : i ≤ sizeMax) :
    ∃ pl, r.payload = .ok pl ∧ ((∃ x, (r.index i).1 = .ok x ∧ Answers r pl i x) ↔
      i = sizeMax ∨ (r.isList = true ∧ ∃ y, HasItem pl i y) ∨ EndsWithin pl i) := by
  obtain ⟨pl, hpl⟩ := exists_payload hr
  have h := readable_of_parse hr hpl
  have hsane := h.sane
  refine ⟨pl, hpl, ?_⟩
  rcases eq_or_lt_of_le hi with rfl | hlt
  · -- the index that marks the empty cache
    refine iff_of_true ⟨{ data := .null [] }, ?_, fun _ y hy => ?_, fun _ => rfl⟩ (.inl rfl)
    · rw [index_sizeMax h.eq]
    · obtain ⟨item, hat, hcount, -⟩ := (hasItem_iff hsane).mp hy
      obtain ⟨e, k, hs, hk, rfl⟩ := itemAt_eq_ok.mp hat
      have hitem := (hsane.croppedFrom e).item hk
      have hle := hitem.le
      rw [hitem.count] at hcount
      rw [count_croppedFrom hsane] at hle
      have hstart := le_itemStart hsane hs (by omega)
      have := h.lt
      omega
  · rw [index_new h hlt]
    cases hat : itemAt pl i with
    | error err =>
      refine iff_of_false ?_ ?_
      · rintro ⟨x, hx, -⟩
        cases hx
      · rintro (hmax | ⟨-, y, hy⟩ | hend)
        · exact hlt.ne hmax
        · obtain ⟨item, hok, -⟩ := (hasItem_iff hsane).mp hy
          cases hat.symm.trans hok
        · obtain ⟨item, hok, -⟩ := (endsWithin_iff hsane).mp hend
          cases hat.symm.trans hok
    | ok item =>
      have hnull : ({ data := item } : RLP).isNull = true ↔ item.count = 0 := beq_iff_eq
      by_cases hcount : item.count = 0
      · refine iff_of_true ⟨_, rfl, fun _ y hy => ?_, fun _ => hnull.mpr hcount⟩ (.inr (.inr ?_))
        · exact absurd hcount ((hasItem_of_itemAt hsane hat).mp hy).1
        · exact (endsWithin_iff hsane).mpr ⟨item, hat, hcount⟩
      · have hitem : HasItem pl i { data := item } := (hasItem_of_itemAt hsane hat).mpr ⟨hcount, rfl⟩
        by_cases hlist : r.isList = true
        · refine iff_of_true ⟨_, rfl, fun _ y hy => ?_, fun hno => ?_⟩ (.inr (.inl ⟨hlist, _, hitem⟩))
          · exact ((hasItem_of_itemAt hsane hat).mp hy).2.symm
          · exact absurd ⟨hlist, _, hitem⟩ hno
        · -- a string whose bytes read as items
          refine iff_of_false ?_ ?_
          · rintro ⟨x, hx, hanswers⟩
            obtain rfl : { data := item } = x := Except.ok.inj hx
            exact hcount (hnull.mp (hanswers.null fun h => hlist h.1))
          · rintro (hmax | ⟨hlist', -⟩ | hend)
            · exact hlt.ne hmax
            · exact hlist hlist'
            · obtain ⟨item', hok, hzero⟩ := (endsWithin_iff hsane).mp hend
              obtain rfl := Except.ok.inj (hat.symm.trans hok)
              exact hcount hzero

/-- The string `"a"` is its own payload, which is also its first item. -/
theorem index_string : ∃ r, parse (.ofBytes [0x61]) .veryStrict = .ok r ∧ r.isData = true ∧
    (r.index 0).1 = .ok (view [0x61] 0 1) := by
  exact exists_ok_and (by decide +kernel)

theorem index_answers_two : ∃ r pl, parse (.ofBytes [0xc2, 0x01, 0x02]) .veryStrict = .ok r ∧
    r.payload = .ok pl ∧ ∃ x, (r.index 2).1 = .ok x ∧ Answers r pl 2 x := by
  obtain ⟨r, hr, hpay⟩ : ∃ r, parse (.ofBytes [0xc2, 0x01, 0x02]) .veryStrict = .ok r ∧
      r.payload = .ok (window [0xc2, 0x01, 0x02] 1 2) := exists_ok_and (by decide +kernel)
  obtain ⟨pl, hpl, hiff⟩ := index_answers_iff (i := 2) hr (by decide)
  obtain rfl : window [0xc2, 0x01, 0x02] 1 2 = pl := Except.ok.inj (hpay.symm.trans hpl)
  have hlast : Tiles [0xc2, 0x01, 0x02] 2 1 [view [0xc2, 0x01, 0x02] 2 1] :=
    .cons (by decide) rfl (.nil _)
  have hboth : Tiles [0xc2, 0x01, 0x02] 1 2
    [view [0xc2, 0x01, 0x02] 1 1, view [0xc2, 0x01, 0x02] 2 1] :=
    .cons (k := 1) (m := 1) one_pos rfl hlast
  exact ⟨r, _, hr, hpl, hiff.mpr (.inr (.inr (.inr ⟨1, _, rfl, hboth, le_rfl⟩)))⟩

end Specification

end RLP
end Vapory
