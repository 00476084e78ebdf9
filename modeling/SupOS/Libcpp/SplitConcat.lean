import SupOS.Libcpp.StringSteps

/-! `split` and `concat` of `utility.cpp` on the bytes of their strings. -/

namespace SupOS.Utility

open Lib Libcpp

/-- `substr`, whose result is made from a C string; without a length it goes to the end. -/
def substr (s : List UInt8) (pos : Nat) (len : Option Nat) : List UInt8 :=
  cString ((s.drop pos).take (len.getD (s.length - pos)))

/-- `find_first_of`, where `none` is `npos`. -/
def findFirstOf (s : List UInt8) (c : UInt8) (pos : Nat) : Option Nat :=
  let pos2 := pos + ((s.drop pos).takeWhile (· ≠ c)).length
  if pos2 < s.length then some pos2 else none

/-- The loop of `split`. -/
def splitLoop (str : List UInt8) (separator : UInt8) (keepEmpty : Bool) :
    Nat → Nat → List (List UInt8) → Except Fault (List (List UInt8))
  | 0, _, _ => .error .diverges
  | fuel + 1, pos, res =>
    if pos < str.length then
      match findFirstOf str separator pos with
      | none => .ok (res ++ [substr str pos none])
      | some pos2 => splitLoop str separator keepEmpty fuel (pos2 + 1)
          (if keepEmpty ∨ pos < pos2 then res ++ [substr str pos (some (pos2 - pos))] else res)
    else .ok res

def split (str : List UInt8) (separator : UInt8) (keepEmpty : Bool) :
    Except Fault (List (List UInt8)) :=
  splitLoop str separator keepEmpty (str.length + 1) 0 []

def concat (strs : List (List UInt8)) (separator : UInt8) : Except Fault (List UInt8) := do
  let res := strs.foldl (fun res s => res ++ s ++ [separator]) []
  assert (decide (0 < res.length))
  return res.dropLast

/-- What `split` keeps of the pieces between the separators: not an empty one at the end. -/
def kept {α : Type} [DecidableEq α] (keepEmpty : Bool)
    (pieces : List (List α)) : List (List α) :=
  (if pieces.getLast? = some [] then pieces.dropLast else pieces).filter
    fun piece => keepEmpty || !piece.isEmpty

variable {str s : List UInt8} {separator : UInt8} {keepEmpty : Bool} {pos fuel : Nat}
  {v res : List (List UInt8)}

/-- `substr` of the class `basic_string` does this to the bytes that a string holds. -/
theorem substr_spec {room : Nat} {junk : Nat → UInt8} {o : BasicString} {b : List UInt8}
    (h : o.Buffered s b) {len : Option Nat} (hpos : pos ≤ s.length)
    (hlen : ∀ n, len = some n → pos + n ≤ s.length) (hn : s.length + 2 < 2 ^ 30) :
    Ensures (o.substr room junk pos (len.getD npos)) (· = .outOfMemory)
      fun r => r.1.Holds (substr s pos len) ∧ r.2 = o := by
  have htake : (s.drop pos).take (len.getD npos) = (s.drop pos).take (len.getD (s.length - pos)) := by
    cases len with
    | some n => rfl
    | none =>
      rw [Option.getD_none, Option.getD_none, List.take_of_length_le, List.take_of_length_le]
      · rw [List.length_drop]
      · rw [List.length_drop, npos]
        omega
  have hle : (cString ((s.drop pos).take (len.getD npos))).length ≤ s.length := by
    refine (List.takeWhile_prefix _).length_le.trans ?_
    rw [List.length_take, List.length_drop]
    omega
  have hsub : Ensures (o.substr room junk pos (len.getD npos)) _ _ := h.substr_cString hpos ?_ (by omega)
  · rwa [htake] at hsub
  · cases len with
    | some n => exact .inr (hlen n rfl)
    | none => exact .inl rfl

/-! ### `split` -/

theorem kept_singleton {α : Type} [DecidableEq α] {s : List α} (hs : s ≠ []) :
    kept keepEmpty [s] = [s] := by
  simp [kept, hs]

theorem kept_cons {α : Type} [DecidableEq α] {s : List α} {v : List (List α)} (hv : v ≠ []) :
    kept keepEmpty (s :: v) =
      (if keepEmpty || !s.isEmpty then [s] else []) ++ kept keepEmpty v := by
  obtain ⟨x, w, rfl⟩ := List.exists_cons_of_ne_nil hv
  unfold kept
  rw [List.getLast?_cons_cons]
  split_ifs with hlast hs <;> simp_all [List.filter_cons]

/-- What is in front of the first separator, and behind it. -/
theorem findFirstOf_eq (hpos : pos < str.length) :
    (findFirstOf str separator pos = none ∧ separator ∉ str.drop pos) ∨
    ∃ word, findFirstOf str separator pos = some (pos + word.length) ∧ separator ∉ word ∧
      pos + word.length < str.length ∧
      str.drop pos = word ++ separator :: str.drop (pos + word.length + 1) := by
  have hsplit := List.takeWhile_append_dropWhile (p := (· ≠ separator)) (l := str.drop pos)
  have hword : separator ∉ (str.drop pos).takeWhile (· ≠ separator) := fun hmem => by
    have := List.mem_takeWhile_imp hmem
    simp at this
  have hlen := congrArg List.length hsplit
  unfold findFirstOf
  generalize hw : (str.drop pos).takeWhile (· ≠ separator) = word at *
  rw [List.length_append, List.length_drop] at hlen
  cases hrest : (str.drop pos).dropWhile (· ≠ separator) with
  | nil =>
    rw [hrest] at hsplit hlen
    rw [List.append_nil] at hsplit
    rw [List.length_nil] at hlen
    exact .inl ⟨if_neg (by omega), hsplit ▸ hword⟩
  | cons c rest =>
    have hc : c = separator := by
      have hhead := List.head?_dropWhile_not (p := (· ≠ separator)) (l := str.drop pos)
      rw [hrest] at hhead
      simpa using hhead
    rw [hrest] at hsplit hlen
    rw [List.length_cons] at hlen
    have hbehind : str.drop (pos + word.length + 1) = rest := by
      rw [Nat.add_assoc, ← List.drop_drop, ← hsplit, List.drop_append]
      simp
    refine .inr ⟨word, if_pos (by omega), hword, by omega, ?_⟩
    rw [hbehind, ← hc, hsplit]

/-- The loop from a position on: the pieces of what is left, as C strings. -/
theorem splitLoop_eq (hle : pos ≤ str.length) (hfuel : str.length < pos + fuel) :
    splitLoop str separator keepEmpty fuel pos res =
      .ok (res ++ (kept keepEmpty ((str.drop pos).splitOn separator)).map cString) := by
  induction fuel generalizing pos res with
  | zero => omega
  | succ fuel ih =>
    unfold splitLoop
    by_cases hpos : pos < str.length
    · rw [if_pos hpos]
      obtain ⟨hfind, hno⟩ | ⟨word, hfind, hno, hlt, hrest⟩ := findFirstOf_eq hpos
      · have hne : str.drop pos ≠ [] := by
          rw [Ne, List.drop_eq_nil_iff]
          omega
        rw [hfind, List.splitOn_eq_singleton hno, kept_singleton hne, List.map_singleton, substr,
          Option.getD_none, ← List.length_drop, List.take_length]
      · rw [hfind, hrest, List.splitOn_append_cons_self_of_not_mem hno,
          kept_cons (List.splitOn_ne_nil _ _)]
        dsimp only
        have hpiece : substr str pos (some (pos + word.length - pos)) = cString word := by
          rw [substr, Option.getD_some, Nat.add_sub_cancel_left, hrest, List.take_left]
        have hword : pos < pos + word.length ↔ word.isEmpty = false := by
          rw [← Bool.not_eq_true, List.isEmpty_iff_length_eq_zero]
          omega
        rw [ih (by omega) (by omega), hpiece]
        by_cases hkeep : keepEmpty = true ∨ pos < pos + word.length
        · have hkeep' : (keepEmpty || !word.isEmpty) = true := by
            simpa [hword] using hkeep
          rw [if_pos hkeep, if_pos hkeep']
          simp
        · have hkeep' : (keepEmpty || !word.isEmpty) = false := by
            simpa [hword] using hkeep
          rw [if_neg hkeep, hkeep']
          simp
    · rw [if_neg hpos, List.drop_of_length_le (by omega)]
      simp [kept]

theorem split_eq (str : List UInt8) (separator : UInt8) (keepEmpty : Bool) :
    split str separator keepEmpty =
      .ok ((kept keepEmpty (str.splitOn separator)).map cString) := by
  unfold split
  rw [splitLoop_eq (Nat.zero_le _) (by omega), List.drop_zero, List.nil_append]

/-! ### `concat` -/

theorem foldl_eq (hv : v ≠ []) (front : List UInt8) :
    v.foldl (fun res s => res ++ s ++ [separator]) front =
      front ++ [separator].intercalate v ++ [separator] := by
  induction v generalizing front with
  | nil => exact absurd rfl hv
  | cons s w ih =>
    cases w with
    | nil => simp
    | cons s' w' =>
      rw [List.foldl_cons, ih (List.cons_ne_nil _ _), List.intercalate_cons_cons]
      simp

theorem concat_eq (hv : v ≠ []) : concat v separator = .ok ([separator].intercalate v) := by
  unfold concat
  rw [foldl_eq hv, List.nil_append]
  simp

theorem concat_nil : concat [] separator = .error .assertion := rfl

/-! ### Pieces -/

theorem cString_eq_iff : cString s = s ↔ (0 : UInt8) ∉ s :=
  ⟨fun h => h ▸ not_mem_cString s, cString_of_not_mem⟩

theorem map_cString_eq_iff : v.map cString = v ↔ ∀ piece ∈ v, (0 : UInt8) ∉ piece := by
  conv_lhs => rhs; rw [← List.map_id v]
  rw [List.map_inj_left]
  exact forall₂_congr fun piece _ => cString_eq_iff

/-- The bytes of the pieces are those of the string other than the separator. -/
theorem mem_splitOn (x : UInt8) :
    (∃ piece ∈ s.splitOn separator, x ∈ piece) ↔ x ∈ s ∧ x ≠ separator := by
  induction s with
  | nil => simp
  | cons y s ih =>
    obtain ⟨head, rest, hsplit⟩ := List.exists_cons_of_ne_nil (List.splitOn_ne_nil separator s)
    rw [List.splitOn_cons_eq_if_modifyHead]
    rw [hsplit] at ih ⊢
    by_cases hy : y = separator
    · rw [if_pos (beq_iff_eq.mpr hy), List.exists_mem_cons_iff, ih, List.mem_cons, hy]
      grind
    · rw [if_neg (by simpa using hy), List.modifyHead_cons, List.exists_mem_cons_iff, List.mem_cons,
        List.mem_cons, or_assoc, ← List.exists_mem_cons_iff (x ∈ ·), ih]
      grind

/-- The last piece is empty when nothing follows the last separator. -/
theorem getLast_splitOn : (s.splitOn separator).getLast? = some [] ↔
    s = [] ∨ s.getLast? = some separator := by
  induction s with
  | nil => simp
  | cons y s ih =>
    obtain ⟨head, rest, hsplit⟩ := List.exists_cons_of_ne_nil (List.splitOn_ne_nil separator s)
    rw [List.splitOn_cons_eq_if_modifyHead]
    by_cases hy : y = separator
    · rw [if_pos (beq_iff_eq.mpr hy)]
      rw [hsplit] at ih ⊢
      rw [List.getLast?_cons_cons, ih]
      cases s with
      | nil => simp [hy]
      | cons z s => simp
    · rw [if_neg (by simpa using hy)]
      have hwhole : [separator].intercalate (s.splitOn separator) = s := List.intercalate_splitOn separator
      rw [hsplit] at ih hwhole ⊢
      rw [List.modifyHead_cons]
      cases rest with
      | nil =>
        rw [List.intercalate_singleton] at hwhole
        subst hwhole
        cases head with
        | nil => simp [hy]
        | cons z s =>
          rw [List.getLast?_singleton] at ih
          simpa using ih
      | cons next rest =>
        rw [List.getLast?_cons_cons] at ih ⊢
        cases s with
        | nil => simp at hsplit
        | cons z s => simpa using ih

/-- All pieces come back only if none ends at a NUL and the last one is not empty. -/
theorem kept_eq_iff (hv : v ≠ []) : (kept true v).map cString = v ↔
    v.getLast? ≠ some [] ∧ ∀ piece ∈ v, (0 : UInt8) ∉ piece := by
  have hall (w : List (List UInt8)) : (w.filter fun piece => true || !piece.isEmpty) = w := by
    simp
  unfold kept
  rw [hall]
  by_cases hlast : v.getLast? = some []
  · rw [if_pos hlast]
    refine iff_of_false (fun heq => ?_) fun hok => hok.1 hlast
    have hlen := congrArg List.length heq
    have hpos := List.length_pos_of_ne_nil hv
    rw [List.length_map, List.length_dropLast] at hlen
    omega
  · rw [if_neg hlast, map_cString_eq_iff]
    exact (and_iff_right hlast).symm

/-- An empty piece is dropped wherever it is. -/
theorem kept_false (v : List (List UInt8)) :
    kept false v = v.filter fun piece => !piece.isEmpty := by
  unfold kept
  simp only [Bool.false_or]
  split_ifs with hlast
  · obtain ⟨w, rfl⟩ := List.getLast?_eq_some_iff.mp hlast
    simp
  · rfl

theorem kept_filter (v : List (List UInt8)) :
    (kept true v).filter (fun piece => !piece.isEmpty) = v.filter fun piece => !piece.isEmpty := by
  unfold kept
  split_ifs with hlast
  · obtain ⟨w, rfl⟩ := List.getLast?_eq_some_iff.mp hlast
    simp
  · simp

theorem mem_of_mem_kept (h : s ∈ kept keepEmpty v) : s ∈ v := by
  have hmem := List.mem_of_mem_filter h
  split_ifs at hmem
  · exact (List.dropLast_subset v) hmem
  · exact hmem

/-- Only empty pieces are not kept. -/
theorem mem_kept_iff (hs : s ≠ []) : s ∈ kept true v ↔ s ∈ v := by
  have hfilter : s ∈ (kept true v).filter (fun piece => !piece.isEmpty) ↔
      s ∈ v.filter fun piece => !piece.isEmpty := by rw [kept_filter]
  have hne : (!s.isEmpty) = true := by simpa using hs
  rwa [List.mem_filter, List.mem_filter, and_iff_left hne, and_iff_left hne] at hfilter

theorem cString_nil_iff : cString s = [] ↔ s = [] ∨ s.head? = some 0 := by
  cases s with
  | nil => simp [cString]
  | cons x s =>
    by_cases hx : x = 0
    · subst hx
      simp [cString]
    · rw [cString, List.takeWhile_cons_of_pos (by simpa using hx)]
      simp [hx]

/-- The empty pieces are the same before and behind `substr`, unless one begins with a NUL. -/
theorem filter_cString_iff : (v.filter fun piece => !piece.isEmpty).map cString =
    (v.map cString).filter (fun piece => !piece.isEmpty) ↔ ∀ piece ∈ v, piece.head? ≠ some 0 := by
  constructor
  · intro heq piece hpiece hhead
    have hne : piece ≠ [] := by
      rintro rfl
      cases hhead
    have hmem : cString piece ∈ (v.filter fun piece => !piece.isEmpty).map cString :=
      List.mem_map_of_mem (List.mem_filter.mpr ⟨hpiece, by simpa using hne⟩)
    rw [heq, cString_nil_iff.mpr (.inr hhead)] at hmem
    simpa using (List.mem_filter.mp hmem).2
  · intro hall
    rw [List.filter_map]
    refine congrArg (List.map cString) (List.filter_congr fun piece hpiece => ?_)
    have hempty : (cString piece).isEmpty = piece.isEmpty := by
      rw [Bool.eq_iff_iff, List.isEmpty_iff, List.isEmpty_iff, cString_nil_iff]
      exact or_iff_left (hall piece hpiece)
    rw [Function.comp_apply, hempty]

/-! ### Both -/

theorem split_concat (hv : v ≠ []) (hsep : ∀ piece ∈ v, separator ∉ piece) (keepEmpty : Bool) :
    (do split (← concat v separator) separator keepEmpty) =
      .ok ((kept keepEmpty v).map cString) := by
  rw [concat_eq hv, ok_bind, split_eq, List.splitOn_intercalate separator hsep hv]

/-- A string comes back when its pieces do. -/
theorem concat_split_iff (s : List UInt8) (separator : UInt8) :
    (do concat (← split s separator true) separator) = .ok s ↔
      (kept true (s.splitOn separator)).map cString = s.splitOn separator := by
  rw [split_eq, ok_bind]
  constructor
  · intro h
    have hsep : ∀ piece ∈ (kept true (s.splitOn separator)).map cString, separator ∉ piece := by
      intro piece hpiece hmem
      obtain ⟨piece, hin, rfl⟩ := List.mem_map.mp hpiece
      have hmem' := (List.takeWhile_sublist _).subset hmem
      have hin' : piece ∈ s.splitOn separator := by
        exact mem_of_mem_kept hin
      exact ((mem_splitOn separator).mp ⟨piece, hin', hmem'⟩).2 rfl
    by_cases hnil : (kept true (s.splitOn separator)).map cString = []
    · rw [hnil, concat_nil] at h
      cases h
    · rw [concat_eq hnil] at h
      rw [← List.splitOn_intercalate separator hsep hnil, Except.ok.inj h]
  · intro h
    rw [h, concat_eq (List.splitOn_ne_nil _ _), List.intercalate_splitOn]

/-- Both ways round: the last element must not be empty, the string neither be empty nor end with
the separator, and no byte be a NUL. What drops empty pieces is right but for the NULs, `split` never
fails, and `concat` fails of no strings. -/
theorem split_concat_iff (separator : UInt8) :
    (∀ v ≠ [], (∀ piece ∈ v, separator ∉ piece) →
      ((do split (← concat v separator) separator true) = .ok v ↔
        v.getLast? ≠ some [] ∧ ∀ piece ∈ v, (0 : UInt8) ∉ piece) ∧
      ((do split (← concat v separator) separator false) =
        .ok (v.filter fun piece => !piece.isEmpty) ↔ ∀ piece ∈ v, (0 : UInt8) ∉ piece)) ∧
    (∀ s : List UInt8, (do concat (← split s separator true) separator) = .ok s ↔
      s ≠ [] ∧ s.getLast? ≠ some separator ∧ (separator = 0 ∨ (0 : UInt8) ∉ s)) ∧
    (∀ s : List UInt8, split s separator false =
        (split s separator true).map (·.filter fun piece => !piece.isEmpty) ↔
      ∀ piece ∈ s.splitOn separator, piece.head? ≠ some 0) ∧
    (∀ s keepEmpty, ∃ v, split s separator keepEmpty = .ok v) ∧
    ∀ v, (∃ s, concat v separator = .ok s) ↔ v ≠ [] := by
  refine ⟨fun v hv hsep => ⟨?_, ?_⟩, fun s => ?_, fun s => ?_, fun s keepEmpty => ⟨_, split_eq ..⟩,
    fun v => ?_⟩
  · rw [split_concat hv hsep, ← kept_eq_iff hv]
    exact ⟨Except.ok.inj, congrArg _⟩
  · rw [split_concat hv hsep, kept_false]
    refine Iff.trans ⟨Except.ok.inj, congrArg _⟩ (map_cString_eq_iff.trans ?_)
    refine forall_congr' fun piece => ?_
    rw [List.mem_filter]
    refine ⟨fun h hpiece hzero => h ⟨hpiece, ?_⟩ hzero, fun h hpiece => h hpiece.1⟩
    simpa using List.ne_nil_of_mem hzero
  · rw [concat_split_iff, kept_eq_iff (List.splitOn_ne_nil _ _), Ne, getLast_splitOn, not_or,
      and_assoc]
    refine and_congr_right fun _ => and_congr_right fun _ => ?_
    have hzero : (∃ piece ∈ s.splitOn separator, 0 ∈ piece) ↔ _ := mem_splitOn 0
    rw [← not_iff_not]
    simp only [not_forall, Classical.not_not, exists_prop, not_or]
    rw [hzero, and_comm, eq_comm]
  · rw [split_eq, split_eq, kept_false, ← kept_filter]
    refine Iff.trans ⟨Except.ok.inj, congrArg _⟩ (filter_cString_iff.trans ?_)
    refine ⟨fun h piece hpiece hhead => ?_, fun h piece hpiece => h piece (mem_of_mem_kept hpiece)⟩
    have hne : piece ≠ [] := by
      rintro rfl
      cases hhead
    exact h piece ((mem_kept_iff hne).mpr hpiece) hhead
  · refine ⟨fun ⟨s, hs⟩ hv => ?_, fun hv => ⟨_, concat_eq hv⟩⟩
    rw [hv, concat_nil] at hs
    cases hs

/-- The pieces of an absolute path. -/
theorem split_concat_iff_path :
    (do split (← concat [[], [97], [98]] 47) 47 true) = .ok [[], [97], [98]] ↔
      ([[], [97], [98]] : List (List UInt8)).getLast? ≠ some [] ∧
        ∀ piece ∈ ([[], [97], [98]] : List (List UInt8)), (0 : UInt8) ∉ piece :=
  ((split_concat_iff 47).1 [[], [97], [98]] (by decide) (by decide)).1

/-- The empty piece behind a last comma is lost, and the empty string comes back as no string. -/
theorem last_piece_lost :
    (do split (← concat [[97], []] 44) 44 true) = .ok [[97]] ∧
    (do concat (← split [97, 44] 44 true) 44) = .ok [97] ∧
    (do concat (← split [] 44 true) 44) = .error .assertion :=
  ⟨rfl, rfl, rfl⟩

end SupOS.Utility
