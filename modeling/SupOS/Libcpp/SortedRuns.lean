import SupOS.Libcpp.SortedVector
import SupOS.Libcpp.VectorSteps
import SupOS.Lib.KeyOrder
import SupOS.Lib.Machine

/-! Maps and sets on sorted vectors, as finite maps and sets: what each call does to the one and the
other. -/

namespace SupOS.Libcpp

open Lib Buffers

section Vectors

variable {T : Type} {m : Buffers T} {v : RawVector} {l : List T} {i : Nat}

theorem Buffers.Holds.read (h : m.Holds v l) (hi : i < l.length) : m.read v.data i = .ok l[i] := by
  obtain ⟨b, k, -, rfl, hhas⟩ := h.of_ne_nil (List.ne_nil_of_length_pos (Nat.zero_lt_of_lt hi))
  exact hhas.read hi

theorem Buffers.Holds.entry (h : m.Holds v l) (hi : i ≤ l.length) : v.entry m i = .ok l[i]? := by
  have hsize := h.size
  unfold RawVector.entry
  by_cases hlast : i = v.size
  · rw [if_pos hlast, List.getElem?_eq_none (by omega)]
  · have hlt : i < l.length := by omega
    rw [if_neg hlast, h.read hlt, List.getElem?_eq_getElem hlt]
    rfl

theorem Buffers.Holds.elements (h : m.Holds v l) : v.elements m = .ok l := by
  have hloop (n : Nat) : ∀ i, i + n = l.length →
      (List.range' i n).mapM (fun j => m.read v.data j) = .ok (l.drop i) := by
    induction n with
    | zero =>
      intro i hi
      rw [List.drop_of_length_le (by omega)]
      rfl
    | succ n ih =>
      intro i hi
      rw [List.range'_succ]
      exact mapM_cons_eq_ok.mpr ⟨_, _, h.read (by omega), ih (i + 1) (by omega),
        List.drop_eq_getElem_cons (by omega)⟩
  rw [RawVector.elements, h.size, List.range_eq_range']
  exact hloop l.length 0 (Nat.zero_add _)

/-- A vector that grows by powers of 2 has room for one more, or can ask for it. -/
theorem Buffers.Holds.fits (h : m.Holds v l) (hl : l.length < 2 ^ 30) :
    v.keeps (v.size + 1) ∨ v.size + 1 + 1 < 2 ^ 30 := by
  obtain ⟨rfl, rfl⟩ | ⟨b, k, hk, rfl, hhas⟩ := h
  · exact .inr (by decide)
  · have hroom := hhas.room
    by_cases hfull : l.length = 2 ^ k
    · have hlt : k < 30 := (Nat.pow_lt_pow_iff_right (by decide)).mp (hfull ▸ hl)
      have hle : 2 ^ k ≤ 2 ^ 29 := Nat.pow_le_pow_right (by decide) (by omega)
      exact .inr (by change l.length + 1 + 1 < 2 ^ 30; omega)
    · by_cases hpos : 0 < l.length
      · exact .inl ⟨hpos, by change l.length + 1 ≤ 2 ^ k; omega⟩
      · exact .inr (by change l.length + 1 + 1 < 2 ^ 30; omega)

end Vectors

variable {K T : Type} [LinearOrder K] {key : T → K} {m : Buffers T} {v : RawVector} {l : List T} {k : K}

/-- Each round halves the part of the vector in which the key's position is. -/
theorem lowerBound_spec (h : m.Holds v l) (hl : Increasing key l) {fuel first count : Nat}
    (hfuel : count ≤ fuel) (hlast : first + count ≤ l.length)
    (hbelow : ∀ j x, j < first → l[j]? = some x → key x < k)
    (habove : ∀ j x, first + count ≤ j → l[j]? = some x → k ≤ key x) :
    ∃ i, lowerBound key v m k fuel first count = .ok i ∧ Splits key l k i := by
  induction fuel generalizing first count with
  | zero =>
    obtain rfl : count = 0 := by omega
    exact ⟨first, rfl, hlast, hbelow, habove⟩
  | succ fuel ih =>
    unfold lowerBound
    by_cases hcount : 0 < count
    · have hmid : first + count / 2 < l.length := by omega
      have hget : l[first + count / 2]? = some l[first + count / 2] := List.getElem?_eq_getElem hmid
      rw [if_pos hcount]
      dsimp only
      rw [h.read hmid, ok_bind]
      by_cases hlt : key l[first + count / 2] < k
      · rw [if_pos hlt]
        refine ih (by omega) (by omega) (fun j x hj hx => ?_) fun j x hj => habove j x (by omega)
        rcases Nat.lt_or_eq_of_le (Nat.le_of_lt_succ hj) with hj | rfl
        · exact lt_trans (hl.lt hx hget hj) hlt
        · exact Option.some.inj (hget.symm.trans hx) ▸ hlt
      · rw [if_neg hlt]
        refine ih (by omega) (by omega) hbelow fun j x hj hx => ?_
        rcases Nat.eq_or_lt_of_le hj with rfl | hj
        · exact Option.some.inj (hget.symm.trans hx) ▸ not_lt.mp hlt
        · exact le_trans (not_lt.mp hlt) (le_of_lt (hl.lt hget hx hj))
    · obtain rfl : count = 0 := by omega
      rw [if_neg hcount]
      exact ⟨first, rfl, hlast, hbelow, habove⟩

theorem lowerBound_all (h : m.Holds v l) (hl : Increasing key l) :
    ∃ i, lowerBound key v m k v.size 0 v.size = .ok i ∧ Splits key l k i := by
  have hsize := h.size
  refine lowerBound_spec h hl (Nat.le_refl _) (by omega) (fun j x hj => absurd hj (Nat.not_lt_zero j))
    fun j x hj hx => ?_
  have hlt := (List.getElem?_eq_some_iff.mp hx).1
  omega

/-- The vector holds the elements of `f`, each one under its key, in the order of the keys. -/
def Refines (key : T → K) (r : RawVector × Buffers T) (f : K → Option T) : Prop :=
  ∃ l, r.2.Sound ∧ r.2.Holds r.1 l ∧ Increasing key l ∧ ∀ k x, (x ∈ l ∧ key x = k) ↔ f k = some x

/-- Keys that are neither below nor above one another are equal. -/
theorem equivalent_iff {x : K} : (¬x < k ∧ ¬k < x) ↔ x = k := by
  rw [not_lt, not_lt]
  exact ⟨fun h => le_antisymm h.2 h.1, fun h => h ▸ ⟨le_refl x, le_refl x⟩⟩

namespace Refines

variable {r : RawVector × Buffers T} {f : K → Option T} {leave : T → T} {default : T}
  {room sizeof : Nat} {val x y : T} {i : Nat}

/-- The key's position, and whether its element is there. -/
theorem position (h : Refines key r f) (k : K) : ∃ l i, r.2.Sound ∧ r.2.Holds r.1 l ∧
    Increasing key l ∧ (∀ k x, (x ∈ l ∧ key x = k) ↔ f k = some x) ∧
    lowerBound key r.1 r.2 k r.1.size 0 r.1.size = .ok i ∧ Splits key l k i ∧
    ∀ x, f k = some x ↔ l[i]? = some x ∧ key x = k := by
  obtain ⟨l, hs, hh, hl, hf⟩ := h
  obtain ⟨i, hi, hsplits⟩ := lowerBound_all (k := k) hh hl
  exact ⟨l, i, hs, hh, hl, hf, hi, hsplits, fun x => (hf k x).symm.trans (hsplits.mem_iff hl)⟩

theorem find (h : Refines key r f) (k : K) : ∃ i, Sorted.find key r.1 r.2 k = .ok i ∧
    i ≤ r.1.size ∧ r.1.entry r.2 i = .ok (f k) ∧ (i = r.1.size ↔ f k = none) := by
  obtain ⟨l, i, hs, hh, hl, hf, hi, hsplits, hat⟩ := h.position k
  have hsize := hh.size
  have hle := hsplits.le
  have hnone : r.1.entry r.2 r.1.size = .ok none := if_pos rfl
  unfold Sorted.find
  rw [hi, ok_bind]
  by_cases hlast : i = r.1.size
  · have hfk : f k = none := by
      by_contra hne
      obtain ⟨x, hx⟩ := Option.ne_none_iff_exists'.mp hne
      rw [List.getElem?_eq_none (by omega)] at hat
      cases ((hat x).mp hx).1
    rw [if_pos hlast, hfk]
    exact ⟨_, rfl, Nat.le_refl _, hnone, iff_of_true rfl rfl⟩
  · have hlt : i < l.length := by omega
    rw [if_neg hlast, hh.read hlt, ok_bind]
    have hget := List.getElem?_eq_getElem hlt
    by_cases hkey : key l[i] = k
    · have hfk := (hat l[i]).mpr ⟨hget, hkey⟩
      rw [if_pos (equivalent_iff.mpr hkey), hfk, ← hget]
      exact ⟨i, rfl, by omega, hh.entry hle, iff_of_false hlast (by rw [hget]; exact Option.some_ne_none _)⟩
    · have hfk : f k = none := by
        by_contra hne
        obtain ⟨x, hx⟩ := Option.ne_none_iff_exists'.mp hne
        obtain ⟨hx, hxk⟩ := (hat x).mp hx
        exact hkey (Option.some.inj (hget.symm.trans hx) ▸ hxk)
      rw [if_neg fun heq => hkey (equivalent_iff.mp heq), hfk]
      exact ⟨_, rfl, Nat.le_refl _, hnone, iff_of_true rfl rfl⟩

/-- A vector that has become another list. -/
theorem of_yields {calm : Prop} {f' : K → Option T} {l' : List T}
    (hr : Yields calm m v l' r) (hl : Increasing key l')
    (hf : ∀ k x, (x ∈ l' ∧ key x = k) ↔ f' k = some x) : Refines key r f' :=
  ⟨l', hr.sound, hr.holds, hl, hf⟩

/-- `f` with an element under its key. -/
theorem mem_update (hf : ∀ k x, (x ∈ l ∧ key x = k) ↔ f k = some x) (hnew : f (key val) = none)
    (l' : List T) (hl' : ∀ y, y ∈ l' ↔ y = val ∨ y ∈ l) (k : K) (x : T) :
    (x ∈ l' ∧ key x = k) ↔ Function.update f (key val) (some val) k = some x := by
  rw [hl', Function.update_apply]
  split_ifs with hk
  · subst hk
    constructor
    · rintro ⟨rfl | hx, hkey⟩
      · rfl
      · cases hnew.symm.trans ((hf _ x).mp ⟨hx, hkey⟩)
    · intro hx
      obtain rfl := Option.some.inj hx
      exact ⟨.inl rfl, rfl⟩
  · rw [← hf]
    refine ⟨fun ⟨hx, hkey⟩ => ⟨hx.resolve_left ?_, hkey⟩, fun h => ⟨.inr h.1, h.2⟩⟩
    rintro rfl
    exact hk hkey.symm

/-- `insert` leaves an element under the same key as it is and reports it. -/
theorem insert (h : Refines key r f) (val : T) (hroom : f (key val) = none → r.1.size < 2 ^ 30) :
    Ensures (Sorted.insert key r.1 r.2 leave default room sizeof val) (NoRoom room sizeof) fun r' =>
      r'.2.2 = (f (key val)).isNone ∧ r'.2.1 < r'.1.1.size ∧
      r'.1.1.entry r'.1.2 r'.2.1 = .ok (some ((f (key val)).getD val)) ∧
      Refines key r'.1 (Function.update f (key val) (some ((f (key val)).getD val))) := by
  obtain ⟨l, i, hs, hh, hl, hf, hi, hsplits, hat⟩ := h.position (key val)
  have hsize := hh.size
  have hle := hsplits.le
  unfold Sorted.insert
  rw [hi, ok_bind]
  cases hfk : f (key val) with
  | none =>
    have hnew : ∀ y ∈ l, key y ≠ key val := fun y hy hkey => by
      cases hfk.symm.trans ((hf _ y).mp ⟨hy, hkey⟩)
    have hlen : l.length < 2 ^ 30 := hsize ▸ hroom hfk
    have hincreasing := hsplits.insert hl hnew
    have hmem := mem_update hf hfk (l.take i ++ val :: l.drop i) fun y => mem_insert_at
    by_cases hlast : i = r.1.size
    · have hpush : Ensures (r.1.pushBack leave room sizeof (.value val) r.2) _ _ :=
        RawVector.pushBack_spec (Q := (· = val)) hs hh (hh.fits hlen) fun _ _ => ⟨val, rfl, rfl⟩
      rw [if_pos hlast]
      refine hpush.bind fun r' ⟨_, x, hx, hr'⟩ => ?_
      subst hx
      rw [hlast, hsize, List.take_length, List.drop_length] at hincreasing hmem
      have hsize' : r'.1.size = l.length + 1 := by
        rw [hr'.holds.size, List.length_append]
        rfl
      have hlength : r'.1.size - 1 = l.length := by omega
      refine ⟨rfl, show r'.1.size - 1 < r'.1.size by omega, ?_, of_yields hr' hincreasing hmem⟩
      change r'.1.entry r'.2 (r'.1.size - 1) = _
      rw [hlength, hr'.holds.entry (by rw [List.length_append]; exact Nat.le_add_right _ _),
        List.getElem?_concat_length]
      rfl
    · have hlt : i < l.length := by omega
      have hne : key l[i] ≠ key val := hnew _ (List.getElem_mem hlt)
      rw [if_neg hlast, hh.read hlt, ok_bind, if_neg fun heq => hne (equivalent_iff.mp heq)]
      refine (RawVector.insert_spec hs hh hlt (hh.fits hlen)).bind fun r' hr' => ?_
      have hlength := RawVector.length_inserted (x := val) hlt
      refine ⟨rfl, show i < r'.1.size by rw [hr'.holds.size]; omega, ?_,
        of_yields hr' hincreasing hmem⟩
      exact (hr'.holds.entry (i := i) (by omega)).trans (congrArg Except.ok (RawVector.getElem_inserted hlt))
  | some x =>
    obtain ⟨hget, hkey⟩ := (hat x).mp hfk
    obtain ⟨hlt, rfl⟩ := List.getElem?_eq_some_iff.mp hget
    rw [if_neg (by omega), hh.read hlt, ok_bind, if_pos (equivalent_iff.mpr hkey)]
    refine ⟨rfl, show i < r.1.size by omega, (hh.entry hle).trans (congrArg Except.ok hget), ?_⟩
    rw [Option.getD_some, ← hfk, Function.update_eq_self]
    exact h

theorem erase (h : Refines key r f) (leave : T → T) (k : K) : ∃ r', Sorted.erase key r.1 r.2 leave k = .ok r' ∧
    r'.2 = (if (f k).isSome then 1 else 0) ∧ Refines key r'.1 (Function.update f k none) := by
  obtain ⟨i, hi, hle, hentry, hlast⟩ := h.find k
  unfold Sorted.erase
  rw [hi, ok_bind]
  cases hfk : f k with
  | none =>
    rw [if_pos (hlast.mpr hfk)]
    refine ⟨_, rfl, rfl, ?_⟩
    rw [← hfk, Function.update_eq_self]
    exact h
  | some x =>
    have hne : i ≠ r.1.size := fun heq => by cases (hlast.mp heq).symm.trans hfk
    obtain ⟨l, hs, hh, hl, hf⟩ := h
    have hget : l[i]? = some x := by
      rw [hh.entry (hh.size ▸ hle), hfk] at hentry
      exact Except.ok.inj hentry
    have hlt := (List.getElem?_eq_some_iff.mp hget).1
    obtain ⟨r', herase, hr'⟩ : ∃ r', r.1.erase leave i (i + 1) r.2 = .ok r' ∧ _ :=
      RawVector.erase_spec hs hh (Nat.le_succ i) hlt
    rw [if_neg hne, herase]
    refine ⟨_, rfl, rfl, of_yields hr' (hl.erase i) fun k' y => ?_⟩
    have hkey := ((hf k x).mpr hfk).2
    rw [hl.mem_erase hget, hkey, Function.update_apply]
    split_ifs with hk
    · exact iff_of_false (fun ⟨hy, hyk⟩ => hy.2 (hyk.trans hk)) nofun
    · rw [← hf, and_right_comm, and_iff_left_of_imp fun hy => hy.2.trans_ne hk]

/-- The assignment to an element of one under the same key. -/
theorem assign (h : Refines key r f) (hi : i < r.1.size) (hentry : r.1.entry r.2 i = .ok (some x))
    (hkey : key y = key x) : r.2.read r.1.data i = .ok x ∧
      ∃ m', r.2.assign r.1.data i y = .ok m' ∧
        Refines key (r.1, m') (Function.update f (key x) (some y)) := by
  obtain ⟨l, hs, hh, hl, hf⟩ := h
  have hget : l[i]? = some x := by
    rw [hh.entry (hh.size ▸ Nat.le_of_lt hi)] at hentry
    exact Except.ok.inj hentry
  obtain ⟨hlt, rfl⟩ := List.getElem?_eq_some_iff.mp hget
  obtain ⟨v₀, m₀⟩ := r
  dsimp only at hs hh
  obtain ⟨b, k, hk, rfl, hhas⟩ := hh.of_ne_nil (List.ne_nil_of_length_pos (Nat.zero_lt_of_lt hlt))
  have hlen : (l.set i y).length = l.length := List.length_set
  have hyields := hhas.yields (l.set i y) hs hk (hlen.trans_le hhas.room)
  rw [hlen] at hyields
  refine ⟨hhas.read hlt, _, hhas.assign hlt, of_yields hyields (hl.set hget hkey) fun k' z => ?_⟩
  rw [hl.mem_set hget, Function.update_apply]
  split_ifs with hk'
  · subst hk'
    constructor
    · rintro ⟨rfl | hz, hzk⟩
      · rfl
      · exact absurd hzk hz.2
    · intro hz
      obtain rfl := Option.some.inj hz
      exact ⟨.inl rfl, hkey⟩
  · rw [← hf]
    constructor
    · rintro ⟨rfl | hz, hzk⟩
      · exact absurd (hzk.symm.trans hkey) hk'
      · exact ⟨hz.1, hzk⟩
    · exact fun hz => ⟨.inr ⟨hz.1, fun heq => hk' (hz.2.symm.trans heq)⟩, hz.2⟩

end Refines

/-! ### Maps -/

variable {V : Type}

/-- What a call does to a finite map, and what it returns; `default` is `T()`. -/
def MapCall.onMap (default : V) (a : K → Option V) :
    MapCall K V → (K → Option V) × MapReply K V
  | .insert k x =>
    (Function.update a k (some ((a k).getD x)), .inserted (some (k, (a k).getD x)) (a k).isNone)
  | .index k assigned =>
    (Function.update a k (some (assigned.getD ((a k).getD default))), .value ((a k).getD default))
  | .erase k => (Function.update a k none, .erased (if (a k).isSome then 1 else 0))
  | .find k => (a, .found ((a k).map (Prod.mk k)))

namespace SortedMap

/-- The vector is strictly sorted by key, and has the entries of the map. -/
def Represents (r : RawVector × Buffers (K × V)) (a : K → Option V) : Prop :=
  ∃ l, r.1.elements r.2 = .ok l ∧ (l.Pairwise fun x y => x.1 < y.1) ∧ ∀ k x, (k, x) ∈ l ↔ a k = some x

/-- A key that is not there yet is inserted only while there are fewer than 2 ^ 30 entries. -/
def Careful (s : (RawVector × Buffers (K × V)) × (K → Option V)) : MapCall K V → Prop
  | .insert k _ | .index k _ => s.2 k = none → s.1.1.size < 2 ^ 30
  | .erase _ | .find _ => True

/-- The entries of a finite map by their keys. -/
def entries (a : K → Option V) (k : K) : Option (K × V) := (a k).map (Prod.mk k)

variable {r : RawVector × Buffers (K × V)} {a : K → Option V} {leave : K × V → K × V}
  {default : K × V} {room sizeof : Nat} {k : K} {x : V} {o : Option V}

theorem represents (h : Refines Prod.fst r (entries a)) : Represents r a := by
  obtain ⟨l, -, hh, hl, hf⟩ := h
  refine ⟨l, hh.elements, hl, fun k x => ?_⟩
  have hentry := hf k (k, x)
  rw [and_iff_left rfl] at hentry
  rw [hentry, entries]
  cases a k with
  | none => exact iff_of_false nofun nofun
  | some y => simp

theorem entries_update : entries (Function.update a k o) =
    Function.update (entries a) k (o.map (Prod.mk k)) := by
  funext k'
  rw [entries, Function.update_apply, Function.update_apply]
  split_ifs with hk
  · rw [hk]
  · rfl

theorem entries_getD : (entries a k).getD (k, x) = (k, (a k).getD x) := by
  rw [entries]
  cases a k <;> rfl

/-- Each call does to the vector what it does to the map. -/
theorem apply_refines (h : Refines Prod.fst r (entries a)) {c : MapCall K V} (hc : Careful (r, a) c) :
    Ensures (SortedMap.apply r room sizeof leave default c) (NoRoom room sizeof) fun r' =>
      r'.2 = (c.onMap default.2 a).2 ∧ Refines Prod.fst r'.1 (entries (c.onMap default.2 a).1) := by
  have hroom {k : K} (hsize : a k = none → r.1.size < 2 ^ 30) : entries a k = none → r.1.size < 2 ^ 30 :=
    fun hk => hsize (Option.map_eq_none_iff.mp hk)
  cases c with
  | insert k x =>
    refine (h.insert (k, x) (hroom hc)).bind fun r' hr' => ?_
    obtain ⟨r', it, new⟩ := r'
    obtain ⟨hnew, -, hentry, hr'⟩ := hr'
    dsimp only at hnew hentry hr' ⊢
    rw [entries_getD] at hentry hr'
    rw [hentry, ok_bind]
    refine ⟨?_, ?_⟩
    · rw [hnew, MapCall.onMap, entries, Option.isNone_map]
    · rw [MapCall.onMap, entries_update]
      exact hr'
  | index k assigned =>
    refine Ensures.bind (Q := fun r' => r'.2 < r'.1.1.size ∧
      r'.1.1.entry r'.1.2 r'.2 = .ok (some (k, (a k).getD default.2)) ∧
      Refines Prod.fst r'.1 (entries (Function.update a k (some ((a k).getD default.2))))) ?_
      fun r' hr' => ?_
    · refine (h.insert (k, default.2) (hroom hc)).bind fun r' hr' => ?_
      obtain ⟨r', it, new⟩ := r'
      obtain ⟨-, hlt, hentry, hr'⟩ := hr'
      dsimp only at hlt hentry hr' ⊢
      rw [entries_getD] at hentry hr'
      refine ⟨hlt, hentry, ?_⟩
      rw [entries_update]
      exact hr'
    · obtain ⟨⟨v, m⟩, it⟩ := r'
      obtain ⟨hlt, hentry, hr'⟩ := hr'
      dsimp only at hlt hentry ⊢
      obtain ⟨hread, m', hassign, hset⟩ :=
        hr'.assign (y := (k, assigned.getD ((a k).getD default.2))) hlt hentry rfl
      dsimp only at hread hassign
      rw [hread, ok_bind]
      cases assigned with
      | none => exact ⟨rfl, hr'⟩
      | some y =>
        change Ensures (m.assign v.data it (k, y) >>= _) _ _
        rw [show m.assign v.data it (k, y) = .ok m' from hassign, ok_bind]
        refine ⟨rfl, ?_⟩
        rw [entries_update, Function.update_idem] at hset
        rw [MapCall.onMap, entries_update]
        exact hset
  | erase k =>
    obtain ⟨r', hr', hn, hrefines⟩ := h.erase leave k
    have herase : SortedMap.erase r.1 r.2 leave k = .ok r' := hr'
    rw [SortedMap.apply, herase, ok_bind]
    obtain ⟨r', n⟩ := r'
    dsimp only at hn hrefines ⊢
    refine ⟨?_, ?_⟩
    · rw [hn, MapCall.onMap, entries, Option.isSome_map]
    · rw [MapCall.onMap, entries_update]
      exact hrefines
  | find k =>
    obtain ⟨i, hi, -, hentry, -⟩ := h.find k
    have hfind : SortedMap.find r.1 r.2 k = .ok i := hi
    rw [SortedMap.apply, hfind, ok_bind, hentry]
    exact ⟨rfl, h⟩

/-- A map with the finite map that it is to be; a command says what memory is left. -/
def machine (leave : K × V → K × V) (default : K × V) (sizeof : Nat) :
    Lib.Machine ((RawVector × Buffers (K × V)) × (K → Option V)) (Nat × MapCall K V) Fault where
  start s := s = ((.empty, .empty), fun _ => none)
  admits _ _ := True
  apply s c := do
    let r ← SortedMap.apply s.1 c.1 sizeof leave default c.2
    return (r.1, (c.2.onMap default.2 s.2).1)

theorem run_refines {s : (RawVector × Buffers (K × V)) × (K → Option V)}
    (hr : (machine leave default sizeof).Run (fun s c => Careful s c.2) s) :
    Refines Prod.fst s.1 (entries s.2) := by
  refine hr.invariant (I := fun s => Refines Prod.fst s.1 (entries s.2)) ?_
    fun s s' c hs _ hc happly => ?_
  · rintro s rfl
    exact ⟨[], fun _ _ => ⟨rfl, rfl⟩, .inl ⟨rfl, rfl⟩, List.Pairwise.nil, fun k x =>
      iff_of_false (fun h => List.not_mem_nil h.1) nofun⟩
  · obtain ⟨r, hr, hs'⟩ := bind_eq_ok.mp happly
    obtain rfl := Except.ok.inj hs'
    exact ((apply_refines hs hc).of_ok hr).2

end SortedMap

/-! ### Sets -/

/-- What a call does to a finite set, and what it returns. -/
def SetCall.onSet (a : K → Bool) : SetCall K → (K → Bool) × SetReply K
  | .insert k => (Function.update a k true, .inserted (some k) (!a k))
  | .erase k => (Function.update a k false, .erased (if a k then 1 else 0))
  | .find k => (a, .found (if a k then some k else none))

namespace SortedSet

/-- The vector is strictly sorted, and has the elements of the set. -/
def Represents (r : RawVector × Buffers K) (a : K → Bool) : Prop :=
  ∃ l, r.1.elements r.2 = .ok l ∧ l.Pairwise (· < ·) ∧ ∀ k, k ∈ l ↔ a k = true

/-- An element that is not there yet is inserted only while there are fewer than 2 ^ 30. -/
def Careful (s : (RawVector × Buffers K) × (K → Bool)) : SetCall K → Prop
  | .insert k => s.2 k = false → s.1.1.size < 2 ^ 30
  | .erase _ | .find _ => True

/-- The elements of a finite set, each one its own key. -/
def elements (a : K → Bool) (k : K) : Option K := if a k then some k else none

variable {r : RawVector × Buffers K} {a : K → Bool} {leave : K → K} {default : K}
  {room sizeof : Nat} {k : K} {b : Bool}

theorem represents (h : Refines id r (elements a)) : Represents r a := by
  obtain ⟨l, -, hh, hl, hf⟩ := h
  refine ⟨l, hh.elements, hl, fun k => ?_⟩
  have hentry : k ∈ l ↔ elements a k = some k := (and_iff_left rfl).symm.trans (hf k k)
  rw [hentry, elements]
  cases a k <;> simp

omit [LinearOrder K] in
theorem elements_update [DecidableEq K] : elements (Function.update a k b) =
    Function.update (elements a) k (if b then some k else none) := by
  funext k'
  rw [elements, Function.update_apply, Function.update_apply]
  split_ifs with hk <;> simp_all [elements]

omit [LinearOrder K] in
theorem elements_getD : (elements a k).getD k = k := by
  rw [elements]
  cases a k <;> rfl

/-- Each call does to the vector what it does to the set. -/
theorem apply_refines (h : Refines id r (elements a)) {c : SetCall K} (hc : Careful (r, a) c) :
    Ensures (SortedSet.apply r room sizeof leave default c) (NoRoom room sizeof) fun r' =>
      r'.2 = (c.onSet a).2 ∧ Refines id r'.1 (elements (c.onSet a).1) := by
  cases c with
  | insert k =>
    refine (h.insert k fun hk => hc ?_).bind fun r' hr' => ?_
    · change elements a k = none at hk
      rw [elements] at hk
      cases hak : a k with
      | false => exact hak
      | true =>
        rw [hak] at hk
        cases hk
    · obtain ⟨r', it, new⟩ := r'
      obtain ⟨hnew, -, hentry, hr'⟩ := hr'
      change new = (elements a k).isNone at hnew
      change _ = Except.ok (some ((elements a k).getD k)) at hentry
      change Refines id r' (Function.update (elements a) k (some ((elements a k).getD k))) at hr'
      rw [elements_getD] at hentry hr'
      dsimp only at hentry ⊢
      rw [hentry, ok_bind]
      refine ⟨?_, ?_⟩
      · rw [hnew, SetCall.onSet, elements]
        cases a k <;> rfl
      · rw [SetCall.onSet, elements_update]
        exact hr'
  | erase k =>
    obtain ⟨r', hr', hn, hrefines⟩ := h.erase leave k
    have herase : SortedSet.erase r.1 r.2 leave k = .ok r' := hr'
    rw [SortedSet.apply, herase, ok_bind]
    obtain ⟨r', n⟩ := r'
    dsimp only at hn hrefines ⊢
    refine ⟨?_, ?_⟩
    · rw [hn, SetCall.onSet, elements]
      cases a k <;> rfl
    · rw [SetCall.onSet, elements_update]
      exact hrefines
  | find k =>
    obtain ⟨i, hi, -, hentry, -⟩ := h.find k
    have hfind : SortedSet.find r.1 r.2 k = .ok i := hi
    rw [SortedSet.apply, hfind, ok_bind, hentry]
    exact ⟨rfl, h⟩

/-- A set with the finite set that it is to be. -/
def machine (leave : K → K) (default : K) (sizeof : Nat) :
    Lib.Machine ((RawVector × Buffers K) × (K → Bool)) (Nat × SetCall K) Fault where
  start s := s = ((.empty, .empty), fun _ => false)
  admits _ _ := True
  apply s c := do
    let r ← SortedSet.apply s.1 c.1 sizeof leave default c.2
    return (r.1, (c.2.onSet s.2).1)

theorem run_refines {s : (RawVector × Buffers K) × (K → Bool)}
    (hr : (machine leave default sizeof).Run (fun s c => Careful s c.2) s) :
    Refines id s.1 (elements s.2) := by
  refine hr.invariant (I := fun s => Refines id s.1 (elements s.2)) ?_
    fun s s' c hs _ hc happly => ?_
  · rintro s rfl
    exact ⟨[], fun _ _ => ⟨rfl, rfl⟩, .inl ⟨rfl, rfl⟩, List.Pairwise.nil, fun k x =>
      iff_of_false (fun h => List.not_mem_nil h.1) nofun⟩
  · obtain ⟨r, hr, hs'⟩ := bind_eq_ok.mp happly
    obtain rfl := Except.ok.inj hs'
    exact ((apply_refines hs hc).of_ok hr).2

end SortedSet

/-! ### Runs -/

/-- In every state of a run in which a new key is inserted only while there are fewer than 2 ^ 30, the
vector of a map or a set is strictly sorted by key and has the entries of the finite map or set, and a next
call returns what it returns there, unless the memory that is left is less than the largest buffer takes. -/
theorem run_sorted {leaveEntry : K × V → K × V} {defaultEntry : K × V} (leave : K → K) (default : K)
    {sizeof : Nat} :
    (∀ s, (SortedMap.machine leaveEntry defaultEntry sizeof).Run (fun s c => SortedMap.Careful s c.2) s →
      SortedMap.Represents s.1 s.2 ∧ ∀ room c, SortedMap.Careful s c →
        Ensures (SortedMap.apply s.1 room sizeof leaveEntry defaultEntry c) (NoRoom room sizeof) fun r =>
          r.2 = (c.onMap defaultEntry.2 s.2).2 ∧
            SortedMap.Represents r.1 (c.onMap defaultEntry.2 s.2).1) ∧
    ∀ s, (SortedSet.machine leave default sizeof).Run (fun s c => SortedSet.Careful s c.2) s →
      SortedSet.Represents s.1 s.2 ∧ ∀ room c, SortedSet.Careful s c →
        Ensures (SortedSet.apply s.1 room sizeof leave default c) (NoRoom room sizeof) fun r =>
          r.2 = (c.onSet s.2).2 ∧ SortedSet.Represents r.1 (c.onSet s.2).1 := by
  refine ⟨fun s hr => ?_, fun s hr => ?_⟩
  · have h := SortedMap.run_refines hr
    exact ⟨SortedMap.represents h, fun room c hc => (SortedMap.apply_refines h hc).mono (fun _ h => h)
      fun r hr => ⟨hr.1, SortedMap.represents hr.2⟩⟩
  · have h := SortedSet.run_refines hr
    exact ⟨SortedSet.represents h, fun room c hc => (SortedSet.apply_refines h hc).mono (fun _ h => h)
      fun r hr => ⟨hr.1, SortedSet.represents hr.2⟩⟩

/-- Five keys in a map, of which the fifth is inserted in the middle of a full vector and one is erased. -/
theorem run_sorted_full : ∃ s, (SortedMap.machine (K := Nat) (V := Nat) id (0, 0) 16).Run
    (fun s c => SortedMap.Careful s c.2) s ∧
    decide (s.1.1.elements s.1.2 = .ok [(1, 0), (2, 20), (4, 44), (9, 90)] ∧ s.1.1.capacity = 8) = true ∧
    SortedMap.Represents s.1 s.2 := by
  have hcheck (s : (RawVector × Buffers (Nat × Nat)) × (Nat → Option Nat)) (c : Nat × MapCall Nat Nat)
      (hc : decide (s.1.1.size < 2 ^ 30) = true) :
      (SortedMap.machine id (0, 0) 16).admits s c ∧ SortedMap.Careful s c.2 := by
    refine ⟨trivial, ?_⟩
    obtain ⟨room, c⟩ := c
    cases c with
    | insert | index => exact fun _ => of_decide_eq_true hc
    | erase | find => trivial
  obtain ⟨s, hs, hP⟩ := Machine.exists_run (M := SortedMap.machine (K := Nat) (V := Nat) id (0, 0) 16)
    hcheck rfl [(4096, .insert 9 90), (4096, .insert 2 20), (4096, .index 7 none),
      (4096, .index 1 none), (4096, .insert 4 40), (4096, .insert 2 5), (4096, .index 4 (some 44)),
      (4096, .erase 7)]
    (P := fun s => decide (s.1.1.elements s.1.2 = .ok [(1, 0), (2, 20), (4, 44), (9, 90)] ∧
      s.1.1.capacity = 8)) (by decide +kernel)
  exact ⟨s, hs, hP, ((run_sorted id 0).1 s hs).1⟩

namespace SortedSet

/-- A set of the numbers below `n` has `n` elements. -/
theorem size_of_range {r : RawVector × Buffers Nat} {a : Nat → Bool} {n : Nat}
    (h : Refines id r (elements a)) (ha : ∀ k, a k = decide (k < n)) : r.1.size = n := by
  obtain ⟨l, -, hh, hl, hf⟩ := h
  have hmem : ∀ k, k ∈ l ↔ k ∈ List.range n := fun k => by
    have hk : k ∈ l ↔ elements a k = some k := (and_iff_left rfl).symm.trans (hf k k)
    rw [hk, elements, ha, List.mem_range]
    by_cases hlt : k < n
    · rw [decide_eq_true hlt]
      exact iff_of_true rfl hlt
    · rw [decide_eq_false hlt]
      exact iff_of_false nofun hlt
  have hnodup : l.Nodup := List.Pairwise.imp (fun h => Nat.ne_of_lt h) hl
  rw [hh.size, ((List.perm_ext_iff_of_nodup hnodup List.nodup_range).mpr hmem).length_eq,
    List.length_range]

/-- The numbers below `n` can be inserted. -/
theorem exists_run_range {n : Nat} (hn : n ≤ 2 ^ 30) : ∃ s,
    (machine (K := Nat) id 0 8).Run (fun _ _ => True) s ∧ Refines id s.1 (elements s.2) ∧
      ∀ k, s.2 k = decide (k < n) := by
  induction n with
  | zero =>
    refine ⟨((.empty, .empty), fun _ => false), .start rfl, ?_, fun k => (decide_eq_false (by omega)).symm⟩
    have hstart : (machine (K := Nat) id 0 8).Run (fun s c => Careful s c.2)
        ((.empty, .empty), fun _ => false) := .start rfl
    exact run_refines hstart
  | succ n ih =>
    obtain ⟨s, hs, hrefines, hn'⟩ := ih (Nat.le_of_succ_le hn)
    have hsize := size_of_range hrefines hn'
    have hstep : Ensures (SortedSet.apply s.1 (2 ^ 40) 8 id 0 (.insert n)) (NoRoom (2 ^ 40) 8) _ :=
      apply_refines hrefines (c := .insert n) fun _ => show s.1.1.size < 2 ^ 30 by omega
    obtain ⟨r, hr, -, hr'⟩ := hstep.returns fun _ hroom => absurd hroom.2 (by decide)
    refine ⟨(r.1, Function.update s.2 n true), hs.step (c := (2 ^ 40, .insert n)) trivial trivial ?_, hr',
      fun k => ?_⟩
    · exact bind_eq_ok.mpr ⟨r, hr, rfl⟩
    · change Function.update s.2 n true k = _
      rw [Function.update_apply, hn']
      split_ifs with hk
      · rw [hk, decide_eq_true (Nat.lt_succ_self n)]
      · exact decide_eq_decide.mpr (by omega)

/-- A set of 2 ^ 30 elements asks `malloc` for far too much, whatever is left. -/
theorem insert_overflows : ¬∀ s, (machine (K := Nat) id 0 8).Run (fun _ _ => True) s → ∀ c,
    Ensures (SortedSet.apply s.1 (2 ^ 40) 8 id 0 c) (fun _ => False) fun r =>
      r.2 = (c.onSet s.2).2 := by
  intro hall
  obtain ⟨s, hs, hrefines, ha⟩ := exists_run_range (Nat.le_refl (2 ^ 30))
  have hsize := size_of_range hrefines ha
  obtain ⟨l, i, -, hh, -, hf, hi, hsplits, -⟩ := hrefines.position (2 ^ 30)
  have hlast : i = s.1.1.size := by
    by_contra hne
    have hle := hsplits.le
    have hlt : i < l.length := by have := hh.size; omega
    have hget := List.getElem?_eq_getElem hlt
    have habove : 2 ^ 30 ≤ l[i] := hsplits.above i _ (Nat.le_refl i) hget
    have hmem := (hf l[i] l[i]).mp ⟨List.getElem_mem hlt, rfl⟩
    rw [elements, ha, decide_eq_false (by omega)] at hmem
    cases hmem
  have hstrategy : strategy (2 ^ 30 + 1) = .ok (2 ^ 64 - 2 ^ 31) := by decide +kernel
  have hreserve : s.1.1.reserve id (2 ^ 40) 8 (s.1.1.size + 1) s.1.2 = .error .outOfMemory := by
    have hkeeps : ¬s.1.1.keeps (s.1.1.size + 1) := fun hkeeps => by
      obtain ⟨hv, -⟩ | ⟨b, k, hk, hv, -⟩ := hh
      · rw [hv] at hsize
        cases hsize
      · have hcap : s.1.1.capacity = 2 ^ k := by rw [hv]
        have hle : 2 ^ k ≤ 2 ^ 30 := Nat.pow_le_pow_right (by decide) hk
        have hroom := hkeeps.2
        omega
    rw [RawVector.reserve, if_neg hkeeps, hsize, hstrategy, ok_bind, Buffers.allocate,
      if_pos (by decide +kernel)]
    rfl
  have hinsert := hall s hs (.insert (2 ^ 30))
  have herror : SortedSet.apply s.1 (2 ^ 40) 8 id 0 (.insert (2 ^ 30)) = .error .outOfMemory := by
    rw [SortedSet.apply, SortedSet.insert, Sorted.insert]
    change (lowerBound id s.1.1 s.1.2 (2 ^ 30) s.1.1.size 0 s.1.1.size >>= _) >>= _ = _
    rw [hi, ok_bind, if_pos hlast, RawVector.pushBack, hreserve]
    rfl
  rw [herror] at hinsert
  exact hinsert

end SortedSet

end SupOS.Libcpp
