import SupOS.Libcpp.RawVector
import SupOS.Libcpp.Refines

/-! Lists laid out in buffers: what a single object's life and the loops over objects do to them. -/

namespace SupOS.Libcpp

open Lib

variable {T : Type}

/-- The objects of a list, from the start of a buffer on. -/
def layout (l : List T) (i : Nat) : List T := l[i]?.toList

section layout

variable {l : List T} {i : Nat} {x : T}

theorem layout_of_lt (h : i < l.length) : layout l i = [l[i]] := by
  rw [layout, List.getElem?_eq_getElem h]
  rfl

theorem layout_of_le (h : l.length ≤ i) : layout l i = [] := by
  rw [layout, List.getElem?_eq_none h]
  rfl

theorem layout_nil : layout ([] : List T) = fun _ => [] := funext fun _ => layout_of_le (Nat.zero_le _)

theorem layout_append : layout (l ++ [x]) = Function.update (layout l) l.length [x] := by
  funext i
  rcases Nat.lt_trichotomy i l.length with h | rfl | h
  · rw [Function.update_of_ne (Nat.ne_of_lt h), layout, layout, List.getElem?_append_left h]
  · rw [Function.update_self, layout, List.getElem?_concat_length]
    rfl
  · rw [Function.update_of_ne (Nat.ne_of_gt h), layout_of_le (Nat.le_of_lt h), layout_of_le]
    rw [List.length_append]
    exact h

theorem layout_set (h : i < l.length) : layout (l.set i x) = Function.update (layout l) i [x] := by
  funext j
  by_cases hj : j = i
  · rw [hj, Function.update_self, layout, List.getElem?_set_self h]
    rfl
  · rw [Function.update_of_ne hj, layout, layout, List.getElem?_set_ne (Ne.symm hj)]

theorem layout_take : layout (l.take i) = fun k => if k < i then layout l k else [] := by
  funext k
  by_cases hk : k < i
  · rw [if_pos hk, layout, layout, List.getElem?_take_of_lt hk]
  · rw [if_neg hk, layout_of_le]
    exact Nat.le_trans (List.length_take_le i l) (Nat.le_of_not_lt hk)

end layout

namespace Buffers

variable {m : Buffers T} {b b' c c' : Nat} {f g : Nat → List T} {l l' : List T} {i j n : Nat} {x : T}

@[simp] theorem fill_capacity : (m.fill b f).capacity = m.capacity := rfl

@[simp] theorem fill_fresh : (m.fill b f).fresh = m.fresh := rfl

@[simp] theorem fill_objects : (m.fill b f).objects b = f := Function.update_self ..

theorem fill_objects_ne (h : b' ≠ b) : (m.fill b f).objects b' = m.objects b' :=
  Function.update_of_ne h ..

@[simp] theorem fill_fill : (m.fill b f).fill b g = m.fill b g :=
  congrArg (Buffers.mk m.capacity · m.fresh) (Function.update_idem ..)

theorem fill_comm (h : b ≠ b') : (m.fill b f).fill b' g = (m.fill b' g).fill b f :=
  congrArg (Buffers.mk m.capacity · m.fresh) (Function.update_comm h ..)

theorem fill_self (h : m.objects b = f) : m.fill b f = m := by
  rw [fill, ← h, Function.update_eq_self]

/-- The buffer holds the list and nothing else. -/
structure Has (m : Buffers T) (b c : Nat) (l : List T) : Prop where
  capacity : m.capacity b = some c
  objects : m.objects b = layout l
  room : l.length ≤ c

theorem access_eq (hcap : m.capacity b = some c) (hi : i < c) : m.access (some b) i = .ok b := by
  simp only [access, hcap, if_pos hi]

theorem construct_eq (hcap : m.capacity b = some c) (hi : i < c) (hobj : m.objects b i = []) :
    m.construct (some b) i x = .ok (m.fill b (Function.update (m.objects b) i [x])) := by
  rw [construct, access_eq hcap hi, ok_bind, hobj]
  rfl

theorem destroy_eq (hcap : m.capacity b = some c) (hi : i < c) (hobj : m.objects b i = [x]) :
    m.destroy (some b) i = .ok (m.fill b (Function.update (m.objects b) i [])) := by
  rw [destroy, access_eq hcap hi, ok_bind]
  simp only [hobj]
  rfl

/-- The construction of the one object of a list that is not there. -/
theorem construct_hole (hcap : m.capacity b = some c) (hi : i < c) (hx : l[i]? = some x) :
    (m.fill b (Function.update (layout l) i [])).construct (some b) i x =
      .ok (m.fill b (layout l)) := by
  have hcap' : (m.fill b (Function.update (layout l) i [])).capacity b = some c := hcap
  have hself : layout l i = [x] := by rw [layout, hx]; rfl
  rw [construct_eq hcap' hi (by rw [fill_objects, Function.update_self]), fill_objects, fill_fill,
    Function.update_idem, ← hself, Function.update_eq_self]

namespace Has

variable (h : m.Has b c l)
include h

theorem fill (l' : List T) (hl : l'.length ≤ c) : (m.fill b (layout l')).Has b c l' :=
  ⟨h.capacity, fill_objects, hl⟩

theorem fill_ne (hne : b ≠ b') : (m.fill b' f).Has b c l :=
  ⟨h.capacity, (fill_objects_ne hne).trans h.objects, h.room⟩

theorem read (hi : i < l.length) : m.read (some b) i = .ok l[i] := by
  rw [Buffers.read, access_eq h.capacity (Nat.lt_of_lt_of_le hi h.room), ok_bind]
  simp only [h.objects, layout_of_lt hi]

theorem assign (hi : i < l.length) :
    m.assign (some b) i x = .ok (m.fill b (layout (l.set i x))) := by
  rw [Buffers.assign, access_eq h.capacity (Nat.lt_of_lt_of_le hi h.room), ok_bind, layout_set hi]
  simp only [h.objects, layout_of_lt hi, put]

theorem moveFrom (hi : i < l.length) (leave : T → T) : m.moveFrom leave (some b) i =
    .ok (l[i], m.fill b (layout (l.set i (leave l[i])))) := by
  rw [Buffers.moveFrom, h.read hi, ok_bind, h.assign hi]
  rfl

theorem construct (hlt : l.length < c) :
    m.construct (some b) l.length x = .ok (m.fill b (layout (l ++ [x]))) := by
  rw [construct_eq h.capacity hlt (by rw [h.objects, layout_of_le (Nat.le_refl _)]), h.objects,
    layout_append]

theorem destroy (hi : i + 1 = l.length) :
    m.destroy (some b) i = .ok (m.fill b (layout (l.take i))) := by
  have hobj : m.objects b i = [l[i]] := by rw [h.objects, layout_of_lt]
  rw [destroy_eq h.capacity (by have := h.room; omega) hobj, h.objects]
  congr 2
  funext k
  simp only [layout_take, Function.update_apply]
  split_ifs
  · omega
  · rfl
  · rfl
  · exact layout_of_le (by omega)

theorem assignFrom (hi : i < l.length) (hj : j < l.length) (leave : T → T) :
    m.assignFrom leave (some b) i j =
      .ok (m.fill b (layout ((l.set i (leave l[i])).set j l[i]))) := by
  have hset : (l.set i (leave l[i])).length = l.length := List.length_set
  rw [Buffers.assignFrom, h.moveFrom hi, ok_bind]
  dsimp only
  rw [(h.fill _ (hset.trans_le h.room)).assign (by omega), fill_fill]

end Has

/-! ### Loops over objects -/

/-- A loop that cannot fail and is known to lead to a value. -/
theorem eq_ok_of_ensures {α : Type} {x : Except Fault α} {a : α}
    (h : Ensures x (fun _ => False) (· = a)) : x = .ok a := by
  obtain ⟨_, hx, rfl⟩ := h.returns fun _ h => h
  exact hx

theorem destroy_range (hcap : m.capacity b = some c) (hn : i + n ≤ c)
    (hobj : ∀ k, i ≤ k → k < i + n → ∃ x, m.objects b k = [x]) :
    (List.range' i n).foldlM (fun m k => m.destroy (some b) k) m =
      .ok (m.fill b fun k => if i ≤ k ∧ k < i + n then [] else m.objects b k) := by
  refine eq_ok_of_ensures (Ensures.foldlM_range' (P := fun j s =>
    s = m.fill b fun k => if i ≤ k ∧ k < j then [] else m.objects b k) ?_ fun j hj hlt s hs => ?_)
  · refine (fill_self (funext fun k => ?_)).symm
    rw [if_neg (by omega)]
  · subst hs
    obtain ⟨x, hx⟩ := hobj j hj hlt
    have hcap' : (m.fill b fun k => if i ≤ k ∧ k < j then [] else m.objects b k).capacity b = some c :=
      hcap
    rw [destroy_eq hcap' (by omega) (by rw [fill_objects, if_neg (by omega), hx]), fill_objects,
      fill_fill]
    refine congrArg (m.fill b) (funext fun k => ?_)
    simp only [Function.update_apply]
    split_ifs <;> first | rfl | omega

/-- `moved l i` is what is left of a list of which `i` objects have been moved from. -/
def moved (leave : T → T) (l : List T) (i : Nat) : List T := (l.take i).map leave ++ l.drop i

theorem length_moved (leave : T → T) : (moved leave l i).length = l.length := by
  rw [moved, List.length_append, List.length_map, ← List.length_append, List.take_append_drop]

theorem moved_zero (leave : T → T) : moved leave l 0 = l := rfl

theorem getElem_moved (leave : T → T) (hi : i < l.length) :
    (moved leave l i)[i]? = some l[i] := by
  rw [moved, List.getElem?_append_right (by simp [Nat.le_of_lt hi]), List.getElem?_drop,
    List.length_map, List.length_take_of_le (Nat.le_of_lt hi), Nat.sub_self]
  exact List.getElem?_eq_getElem hi

theorem moved_succ (leave : T → T) (hi : i < l.length) :
    (moved leave l i).set i (leave l[i]) = moved leave l (i + 1) := by
  have hlen : ((l.take i).map leave).length = i := by
    rw [List.length_map, List.length_take_of_le (Nat.le_of_lt hi)]
  rw [moved, List.set_append_right _ _ (Nat.le_of_eq hlen), hlen, Nat.sub_self,
    List.drop_eq_getElem_cons hi, List.set_cons_zero, moved, List.take_succ_eq_append_getElem hi,
    List.map_append, List.append_assoc]
  rfl

namespace Has

/-- The objects from a position to the end are destroyed in order. -/
theorem destroyFrom (h : m.Has b c l) (hi : i ≤ l.length) :
    (List.range' i (l.length - i)).foldlM (fun m k => m.destroy (some b) k) m =
      .ok (m.fill b (layout (l.take i))) := by
  have hroom := h.room
  rw [destroy_range h.capacity (by omega) fun k hk hlt =>
    ⟨_, by rw [h.objects, layout_of_lt (by omega)]⟩, layout_take]
  refine congrArg (fun f => Except.ok (m.fill b f)) (funext fun k => ?_)
  rw [h.objects]
  split_ifs
  · omega
  · rfl
  · rfl
  · exact layout_of_le (by omega)

/-- The last objects are destroyed, from the end on. -/
theorem destroyBack (h : m.Has b c l) (hn : n ≤ l.length) :
    (List.range' 1 n).foldlM (fun m k => m.destroy (some b) (l.length - k)) m =
      .ok (m.fill b (layout (l.take (l.length - n)))) := by
  have hloop : Ensures ((List.range' 1 n).foldlM (fun m k => m.destroy (some b) (l.length - k)) m)
      (fun _ => False) (fun s => s = m.fill b (layout (l.take (l.length - (1 + n - 1))))) := by
    refine Ensures.foldlM_range' (P := fun k s => s = m.fill b (layout (l.take (l.length - (k - 1)))))
      ?_ fun k hk hlt s hs => ?_
    · exact (fill_self (by rw [h.objects, Nat.sub_self, Nat.sub_zero, List.take_length])).symm
    · subst hs
      have hlen : (l.take (l.length - (k - 1))).length = l.length - (k - 1) :=
        List.length_take_of_le (by omega)
      have hroom := h.room
      rw [(h.fill _ (by omega)).destroy (i := l.length - k) (by omega), fill_fill, List.take_take,
        Nat.min_eq_left (by omega), Nat.add_sub_cancel]
      rfl
  rw [Nat.add_sub_cancel_left] at hloop
  exact eq_ok_of_ensures hloop

/-- New objects of one value at the end. -/
theorem constructAll (h : m.Has b c l) (hn : l.length + n ≤ c) :
    (List.range' l.length n).foldlM (fun m k => m.construct (some b) k x) m =
      .ok (m.fill b (layout (l ++ List.replicate n x))) := by
  have hloop : Ensures ((List.range' l.length n).foldlM (fun m k => m.construct (some b) k x) m)
      (fun _ => False) (fun s =>
        s = m.fill b (layout (l ++ List.replicate (l.length + n - l.length) x))) := by
    refine Ensures.foldlM_range' (P := fun k s =>
      s = m.fill b (layout (l ++ List.replicate (k - l.length) x))) ?_ fun k hk hlt s hs => ?_
    · exact (fill_self (by rw [h.objects, Nat.sub_self, List.replicate_zero, List.append_nil])).symm
    · subst hs
      have hlen : (l ++ List.replicate (k - l.length) x).length = k := by
        rw [List.length_append, List.length_replicate]
        omega
      have hstep := (h.fill (l ++ List.replicate (k - l.length) x) (by omega)).construct (x := x)
        (by omega)
      rw [hlen, fill_fill] at hstep
      rw [hstep, Nat.succ_sub hk, List.replicate_succ', List.append_assoc]
      rfl
  rw [Nat.add_sub_cancel_left] at hloop
  exact eq_ok_of_ensures hloop

/-- Copies of the objects of another buffer. -/
theorem copyAll (h : m.Has b c []) (h' : m.Has b' c' l) (hne : b' ≠ b) (hn : l.length ≤ c) :
    (List.range l.length).foldlM (fun m k => do m.construct (some b) k (← m.read (some b') k)) m =
      .ok (m.fill b (layout l)) := by
  have hloop : Ensures ((List.range l.length).foldlM
      (fun m k => do m.construct (some b) k (← m.read (some b') k)) m)
      (fun _ => False) (fun s => s = m.fill b (layout (l.take l.length))) := by
    refine Ensures.foldlM_range (P := fun k s => s = m.fill b (layout (l.take k))) ?_
      fun k hk s hs => ?_
    · exact (fill_self h.objects).symm
    · subst hs
      have hlen : (l.take k).length = k := List.length_take_of_le (Nat.le_of_lt hk)
      have hstep := (h.fill (l.take k) (by omega)).construct (x := l[k]) (by omega)
      rw [hlen, fill_fill, ← List.take_succ_eq_append_getElem hk] at hstep
      rw [(h'.fill_ne hne).read hk, ok_bind, hstep]
      rfl
  rw [List.take_length] at hloop
  exact eq_ok_of_ensures hloop

/-- An object is constructed from one that is moved from. -/
theorem constructFrom (h : m.Has b c l) (hi : i < l.length) (leave : T → T) (hne : b ≠ b')
    (hcap : m.capacity b' = some c') (hj : j < c') (hobj : m.objects b' j = []) :
    m.constructFrom leave (some b) i (some b') j =
      .ok ((m.fill b (layout (l.set i (leave l[i])))).fill b'
        (Function.update (m.objects b') j [l[i]])) := by
  have hsame : (m.fill b (layout (l.set i (leave l[i])))).objects b' = m.objects b' :=
    fill_objects_ne hne.symm
  have hcap' : (m.fill b (layout (l.set i (leave l[i])))).capacity b' = some c' := hcap
  rw [Buffers.constructFrom, h.moveFrom hi, ok_bind]
  dsimp only
  rw [construct_eq hcap' hj (by rw [hsame, hobj]), hsame]

end Has

/-- Objects are moved into another buffer, `d` places further on. -/
theorem move_range {d : Nat} (leave : T → T) (h : m.Has b c (moved leave l i)) (hne : b ≠ b')
    (hcap : m.capacity b' = some c') (hn : i + n ≤ l.length) (hroom : i + n + d ≤ c')
    (hobj : ∀ k, i ≤ k → k < i + n → m.objects b' (k + d) = []) :
    (List.range' i n).foldlM (fun m k => m.constructFrom leave (some b) k (some b') (k + d)) m =
      .ok ((m.fill b (layout (moved leave l (i + n)))).fill b' fun k =>
        if i + d ≤ k ∧ k < i + n + d then layout l (k - d) else m.objects b' k) := by
  refine eq_ok_of_ensures (Ensures.foldlM_range' (P := fun j s =>
    s = (m.fill b (layout (moved leave l j))).fill b' fun k =>
      if i + d ≤ k ∧ k < j + d then layout l (k - d) else m.objects b' k) ?_ fun j hj hlt s hs => ?_)
  · rw [fill_self h.objects, fill_self (funext fun k => ?_)]
    rw [if_neg (by omega)]
  · subst hs
    have hlen : (moved leave l j).length = (moved leave l i).length := by
      rw [length_moved, length_moved]
    have hhas : ((m.fill b (layout (moved leave l j))).fill b' fun k =>
        if i + d ≤ k ∧ k < j + d then layout l (k - d) else m.objects b' k).Has b c (moved leave l j) :=
      (h.fill _ (hlen.trans_le h.room)).fill_ne hne
    have hj' : j < l.length := by omega
    have hjm : j < (moved leave l j).length := by rw [length_moved]; exact hj'
    have hget : (moved leave l j)[j] = l[j] :=
      Option.some.inj ((List.getElem?_eq_getElem _).symm.trans (getElem_moved leave hj'))
    rw [hhas.constructFrom hjm leave hne hcap (j := j + d) (by omega)
      (by rw [fill_objects, if_neg (by omega), hobj j hj hlt]), hget, moved_succ leave hj',
      fill_objects, fill_comm hne.symm, fill_fill, fill_fill]
    refine congrArg (Buffers.fill _ b') (funext fun k => ?_)
    simp only [Function.update_apply]
    split_ifs with hk hin hin
    · rw [hk, Nat.add_sub_cancel, layout_of_lt hj']
    · omega
    · rfl
    · omega
    · omega
    · rfl

/-- `move` of the objects behind those that are erased: the list is that, up to the objects at the
end that remain to be destroyed. -/
theorem Has.shiftDown {first last : Nat} (h : m.Has b c l) (hfirst : first < last)
    (hlast : last ≤ l.length) (leave : T → T) :
    ∃ L, (List.range' last (l.length - last)).foldlM
        (fun m k => m.assignFrom leave (some b) k (k - (last - first))) m =
          .ok (m.fill b (layout L)) ∧ L.length = l.length ∧
      L.take (l.length - (last - first)) = l.take first ++ l.drop last := by
  have hloop : Ensures ((List.range' last (l.length - last)).foldlM
      (fun m k => m.assignFrom leave (some b) k (k - (last - first))) m) (fun _ => False) fun s =>
      ∃ L, s = m.fill b (layout L) ∧ L.length = l.length ∧
        (∀ k < last + (l.length - last) - (last - first), L[k]? = (l.take first ++ l.drop last)[k]?) ∧
        ∀ k, last + (l.length - last) ≤ k → L[k]? = l[k]? := by
    refine Ensures.foldlM_range' (P := fun j s => ∃ L, s = m.fill b (layout L) ∧
      L.length = l.length ∧ (∀ k < j - (last - first), L[k]? = (l.take first ++ l.drop last)[k]?) ∧
        ∀ k, j ≤ k → L[k]? = l[k]?) ?_ fun j hj hlt s hs => ?_
    · refine ⟨l, (fill_self h.objects).symm, rfl, fun k hk => ?_, fun _ _ => rfl⟩
      rw [List.getElem?_append_left (by rw [List.length_take]; omega),
        List.getElem?_take_of_lt (by omega)]
    · obtain ⟨L, rfl, hlen, hbelow, habove⟩ := hs
      have hjl : j < L.length := by omega
      have hget : L[j]? = l[j]? := habove j (Nat.le_refl j)
      rw [(h.fill _ (hlen.trans_le h.room)).assignFrom hjl (j := j - (last - first)) (by omega) leave,
        fill_fill]
      refine ⟨_, rfl, ?_, fun k hk => ?_, fun k hk => ?_⟩
      · rw [List.length_set, List.length_set, hlen]
      · by_cases hkj : k = j - (last - first)
        · rw [hkj, List.getElem?_set_self (by rw [List.length_set]; omega),
            ← List.getElem?_eq_getElem hjl, hget, List.getElem?_append_right
              (by rw [List.length_take]; omega), List.getElem?_drop, List.length_take]
          congr 1
          omega
        · rw [List.getElem?_set_ne (Ne.symm hkj), List.getElem?_set_ne (by omega), hbelow k (by omega)]
      · rw [List.getElem?_set_ne (by omega), List.getElem?_set_ne (by omega), habove k (by omega)]
  obtain ⟨s, hs, L, rfl, hlen, hbelow, -⟩ := hloop.returns fun _ h => h
  refine ⟨L, hs, hlen, List.ext_getElem? fun k => ?_⟩
  by_cases hk : k < l.length - (last - first)
  · rw [List.getElem?_take_of_lt hk]
    exact hbelow k (by omega)
  · rw [List.getElem?_take_eq_none (Nat.le_of_not_lt hk), List.getElem?_eq_none]
    rw [List.length_append, List.length_take, List.length_drop]
    omega

/-- `move_backward` by one place. -/
theorem Has.moveBackward {first : Nat} (h : m.Has b c l) (hn : first + n < l.length)
    (leave : T → T) :
    ∃ L, m.moveBackward leave (some b) first n = .ok (m.fill b (layout L)) ∧ L.length = l.length ∧
      (∀ k < first, L[k]? = l[k]?) ∧ (∀ k, first ≤ k → k < first + n → L[k + 1]? = l[k]?) ∧
      ∀ k, first + n < k → L[k]? = l[k]? := by
  induction n generalizing m l with
  | zero =>
    refine ⟨l, ?_, rfl, fun _ _ => rfl, fun k hk hlt => absurd hk (Nat.not_le_of_lt hlt), fun _ _ => rfl⟩
    rw [fill_self h.objects]
    rfl
  | succ n ih =>
    have hset : ((l.set (first + n) (leave l[first + n])).set (first + n + 1) l[first + n]).length =
        l.length := by rw [List.length_set, List.length_set]
    rw [Buffers.moveBackward, h.assignFrom (i := first + n) (by omega) (by omega) leave, ok_bind]
    obtain ⟨L, hmove, hlen, hbelow, hmid, habove⟩ :=
      ih (h.fill _ (hset.trans_le h.room)) (by rw [hset]; omega)
    rw [fill_fill] at hmove
    refine ⟨L, hmove, hlen.trans hset, fun k hk => ?_, fun k hk hlt => ?_, fun k hk => ?_⟩
    · rw [hbelow k hk, List.getElem?_set_ne (by omega), List.getElem?_set_ne (by omega)]
    · by_cases hkn : k = first + n
      · rw [habove (k + 1) (by omega), hkn, List.getElem?_set_self (by rw [List.length_set]; omega),
          ← List.getElem?_eq_getElem]
      · rw [hmid k hk (by omega), List.getElem?_set_ne (by omega), List.getElem?_set_ne (by omega)]
    · rw [habove k (by omega), List.getElem?_set_ne (by omega), List.getElem?_set_ne (by omega)]

end Buffers

end SupOS.Libcpp
