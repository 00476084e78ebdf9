import SupOS.Libcpp.SortedRuns

/-! The lookups of a constant map of `libc++/map`, beside those of one that can change. -/

namespace SupOS.Libcpp

open Lib Buffers

namespace SortedMap

variable {K V : Type} [LinearOrder K]

section

variable (v : RawVector) (m : Buffers (K × V))

/-- `find` of a constant map, which looks at the position that `lower_bound` returns even if it is
`end()`. -/
def constFind (k : K) : Except Fault Nat := do
  let it ← lowerBound Prod.fst v m k v.size 0 v.size
  let x ← m.read v.data it
  if ¬x.1 < k ∧ ¬k < x.1 then return it else return v.size

def count (k : K) : Except Fault Nat := do
  let it ← constFind v m k
  return if it = v.size then 0 else 1

/-- `at` of a map that can change. -/
def valueAt (k : K) : Except Fault V := do
  let it ← find v m k
  if it = v.size then .error .aborted
  else do return (← m.read v.data it).2

/-- `at` of a constant map. -/
def constAt (k : K) : Except Fault V := do
  let it ← constFind v m k
  if it = v.size then .error .aborted
  else do return (← m.read v.data it).2

end

variable {r : RawVector × Buffers (K × V)} {a : K → Option V} {m : Buffers (K × V)} {v : RawVector}
  {l : List (K × V)} {k : K} {i : Nat}

/-- Behind the elements of a vector there is nothing to read. -/
theorem read_past (h : m.Holds v l) (hi : l.length ≤ i) : ∃ e, m.read v.data i = .error e := by
  unfold Buffers.read
  cases hb : m.access v.data i with
  | error e => exact ⟨e, rfl⟩
  | ok b =>
    obtain ⟨rfl, rfl⟩ | ⟨b', n, hn, rfl, hhas⟩ := h
    · cases hb
    · have hobjects : m.objects b i = [] := by
        have hb' : b' = b := by
          simp only [access, hhas.capacity] at hb
          split at hb
          · exact Except.ok.inj hb
          · cases hb
        rw [← hb', hhas.objects]
        exact layout_of_le hi
      rw [ok_bind, hobjects]
      exact ⟨_, rfl⟩

/-- The key's position is that of an element when not all keys are below it. -/
theorem position_lt_iff (hf : ∀ k x, (x ∈ l ∧ x.1 = k) ↔ entries a k = some x)
    (hsplits : Splits Prod.fst l k i) : i < l.length ↔ ∃ k', (a k').isSome ∧ k ≤ k' := by
  constructor
  · intro hi
    have hget := List.getElem?_eq_getElem hi
    have hentry := (hf l[i].1 l[i]).mp ⟨List.getElem_mem hi, rfl⟩
    refine ⟨l[i].1, ?_, hsplits.above i _ (Nat.le_refl i) hget⟩
    cases ha : a l[i].1 with
    | none =>
      rw [entries, ha] at hentry
      cases hentry
    | some x => rfl
  · rintro ⟨k', hk', hle⟩
    obtain ⟨x, hx⟩ := Option.isSome_iff_exists.mp hk'
    obtain ⟨hmem, -⟩ := (hf k' (k', x)).mpr (by rw [entries, hx]; rfl)
    obtain ⟨j, hj⟩ := List.mem_iff_getElem?.mp hmem
    have hij : i ≤ j := by
      by_contra hlt
      exact absurd hle (not_le_of_gt (hsplits.below j _ (Nat.lt_of_not_le hlt) hj))
    exact Nat.lt_of_le_of_lt hij (List.getElem?_eq_some_iff.mp hj).1

theorem careful_of_size {s : (RawVector × Buffers (K × V)) × (K → Option V)} {c : MapCall K V}
    (h : s.1.1.size < 2 ^ 30) : Careful s c := by
  cases c with
  | insert | index => exact fun _ => h
  | erase | find => trivial

/-- The lookups of a constant map do what those of the other one do, and read elements only, exactly
when some key is not below the one that they look for. -/
theorem const_lookups_iff (h : Refines Prod.fst r (entries a)) (k : K) :
    (∃ it, find r.1 r.2 k = .ok it ∧ constFind r.1 r.2 k = .ok it ∧
      count r.1 r.2 k = .ok (if it = r.1.size then 0 else 1) ∧
      constAt r.1 r.2 k = valueAt r.1 r.2 k) ↔
    ∃ k', (a k').isSome ∧ k ≤ k' := by
  obtain ⟨l, i, -, hh, -, hf, hi, hsplits, -⟩ := h.position k
  have hsize := hh.size
  have hle := hsplits.le
  rw [← position_lt_iff hf hsplits]
  constructor
  · rintro ⟨it, -, hconst, -⟩
    by_contra hlast
    obtain ⟨e, he⟩ := read_past (i := i) hh (by omega)
    rw [constFind, hi, ok_bind, he] at hconst
    cases hconst
  · intro hlt
    obtain ⟨it, hfind, -⟩ := h.find k
    have hfind : find r.1 r.2 k = .ok it := hfind
    have hconst : constFind r.1 r.2 k = find r.1 r.2 k := by
      rw [constFind, find, Sorted.find, hi, ok_bind, ok_bind, if_neg (by omega)]
    refine ⟨it, hfind, hconst.trans hfind, ?_, ?_⟩
    · rw [count, hconst, hfind]
      rfl
    · rw [constAt, valueAt, hconst]

/-- A key below the only one of a map. -/
theorem const_lookups_iff_one : ∃ s, (machine (K := Nat) (V := Nat) id (0, 0) 16).Run
    (fun s c => Careful s c.2) s ∧ s.2 7 = some 70 ∧
    ((∃ it, find s.1.1 s.1.2 5 = .ok it ∧ constFind s.1.1 s.1.2 5 = .ok it ∧
      count s.1.1 s.1.2 5 = .ok (if it = s.1.1.size then 0 else 1) ∧
      constAt s.1.1 s.1.2 5 = valueAt s.1.1 s.1.2 5) ↔
    ∃ k', (s.2 k').isSome ∧ 5 ≤ k') := by
  obtain ⟨s, hs, hP⟩ := Machine.exists_run (M := machine (K := Nat) (V := Nat) id (0, 0) 16)
    (C := fun s c => Careful s c.2)
    (fun s c hc => ⟨trivial, careful_of_size (of_decide_eq_true hc)⟩) rfl [(4096, .insert 7 70)]
    (P := fun s => decide (s.2 7 = some 70)) (by decide +kernel)
  exact ⟨s, hs, of_decide_eq_true hP, const_lookups_iff (run_refines hs) 5⟩

/-- In the empty map there is no buffer to look at, and in a map with a smaller key no object. -/
theorem constFind_past_end : (find .empty (.empty : Buffers (Nat × Nat)) 5 = .ok 0 ∧
      constFind .empty (.empty : Buffers (Nat × Nat)) 5 = .error .nullPointer) ∧
    ∃ s, (machine (K := Nat) (V := Nat) id (0, 0) 16).Run (fun s c => Careful s c.2) s ∧
      find s.1.1 s.1.2 9 = .ok 1 ∧ constFind s.1.1 s.1.2 9 = .error .dangling := by
  refine ⟨⟨rfl, rfl⟩, ?_⟩
  obtain ⟨s, hs, hP⟩ := Machine.exists_run (M := machine (K := Nat) (V := Nat) id (0, 0) 16)
    (C := fun s c => Careful s c.2)
    (fun s c hc => ⟨trivial, careful_of_size (of_decide_eq_true hc)⟩) rfl [(4096, .insert 7 70)]
    (P := fun s => decide (find s.1.1 s.1.2 9 = .ok 1 ∧ constFind s.1.1 s.1.2 9 = .error .dangling))
    (by decide +kernel)
  exact ⟨s, hs, of_decide_eq_true hP⟩

end SortedMap

end SupOS.Libcpp
