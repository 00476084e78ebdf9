import SupOS.Libcpp.VectorSteps
import SupOS.Lib.Machine

/-! The vectors of a program: as long as none has to move its elements to a larger buffer, each object and
each buffer has one owner. -/

namespace SupOS.Libcpp.Vectors

open Lib Buffers RawVector

variable {T : Type}

/-- What the comment in the class says, of all the vectors together: the objects that are constructed and
not destroyed are the elements of the vectors, and each buffer that is allocated is that of one vector. -/
structure Accounted (p : Vectors T) : Prop where
  objects : ∀ b k, p.buffers.objects b k ≠ [] ↔ ∃ i v, p.live i = some v ∧ v.data = some b ∧ k < v.size
  once : ∀ b k, (p.buffers.objects b k).length ≤ 1
  buffers : ∀ b, p.buffers.capacity b ≠ none ↔ ∃! i, ∃ v, p.live i = some v ∧ v.data = some b
  capacity : ∀ i v b, p.live i = some v → v.data = some b → p.buffers.capacity b = some v.capacity
  room : ∀ i v, p.live i = some v → v.size ≤ v.capacity ∧ (v.data = none → v = .empty)

/-- The argument refers to something. -/
def Refers (p : Vectors T) : Argument T → Prop
  | .value _ => True
  | .element j k => ∃ w ∈ p.live j, k < w.size

/-- The calls that a program can make. -/
def Admits (p : Vectors T) : VectorCall T → Prop
  | .make i | .makeSize i _ | .makeList i _ => p.live i = none
  | .makeCopy i j | .makeMove i j => p.live i = none ∧ p.live j ≠ none
  | .delete i | .reserve i _ | .resize i _ | .clear i => p.live i ≠ none
  | .copyAssign i j | .moveAssign i j => p.live i ≠ none ∧ p.live j ≠ none
  | .pushBack i val | .pushBackMove i val => p.live i ≠ none ∧ p.Refers val
  | .popBack i => ∃ v ∈ p.live i, 0 < v.size
  | .insert i position val => (∃ v ∈ p.live i, position ≤ v.size) ∧ p.Refers val
  | .erase i first last => ∃ v ∈ p.live i, first ≤ last ∧ last ≤ v.size

/-- No elements are moved to a larger buffer, and no room is asked for whose size `strategy` computes as
`1 << 31` of an `int`. -/
def Careful (p : Vectors T) : VectorCall T → Prop
  | .makeSize _ n => n + 1 < 2 ^ 30
  | .makeCopy _ j => ∀ w ∈ p.live j, w.size + 1 < 2 ^ 30
  | .makeList _ il => il.length ≤ 4
  | .copyAssign i j => i = j ∨ ∀ w ∈ p.live j, w.size + 1 < 2 ^ 30
  | .pushBack i _ | .pushBackMove i _ | .insert i _ _ =>
    ∀ v ∈ p.live i, v.size = 0 ∨ v.size + 1 ≤ v.capacity
  | .reserve i n => ∀ v ∈ p.live i, v.keeps n ∨ v.size = 0 ∧ n + 1 < 2 ^ 30
  | .resize i n => ∀ v ∈ p.live i, n ≤ v.size ∨ v.keeps n ∨ v.size = 0 ∧ n + 1 < 2 ^ 30
  | _ => True

instance (p : Vectors T) : (val : Argument T) → Decidable (p.Refers val)
  | .value _ => .isTrue trivial
  | .element j k => inferInstanceAs (Decidable (∃ w ∈ p.live j, k < w.size))

instance (p : Vectors T) : (c : VectorCall T) → Decidable (p.Admits c)
  | .make i | .makeSize i _ | .makeList i _ => inferInstanceAs (Decidable (p.live i = none))
  | .makeCopy i j | .makeMove i j => inferInstanceAs (Decidable (p.live i = none ∧ p.live j ≠ none))
  | .delete i | .reserve i _ | .resize i _ | .clear i => inferInstanceAs (Decidable (p.live i ≠ none))
  | .copyAssign i j | .moveAssign i j =>
    inferInstanceAs (Decidable (p.live i ≠ none ∧ p.live j ≠ none))
  | .pushBack i val | .pushBackMove i val =>
    inferInstanceAs (Decidable (p.live i ≠ none ∧ p.Refers val))
  | .popBack i => inferInstanceAs (Decidable (∃ v ∈ p.live i, 0 < v.size))
  | .insert i position val =>
    inferInstanceAs (Decidable ((∃ v ∈ p.live i, position ≤ v.size) ∧ p.Refers val))
  | .erase i first last => inferInstanceAs (Decidable (∃ v ∈ p.live i, first ≤ last ∧ last ≤ v.size))

instance (p : Vectors T) : (c : VectorCall T) → Decidable (p.Careful c)
  | .makeSize _ n => inferInstanceAs (Decidable (n + 1 < 2 ^ 30))
  | .makeCopy _ j => inferInstanceAs (Decidable (∀ w ∈ p.live j, w.size + 1 < 2 ^ 30))
  | .makeList _ il => inferInstanceAs (Decidable (il.length ≤ 4))
  | .copyAssign i j => inferInstanceAs (Decidable (i = j ∨ ∀ w ∈ p.live j, w.size + 1 < 2 ^ 30))
  | .pushBack i _ | .pushBackMove i _ | .insert i _ _ =>
    inferInstanceAs (Decidable (∀ v ∈ p.live i, v.size = 0 ∨ v.size + 1 ≤ v.capacity))
  | .reserve i n =>
    inferInstanceAs (Decidable (∀ v ∈ p.live i, v.keeps n ∨ v.size = 0 ∧ n + 1 < 2 ^ 30))
  | .resize i n =>
    inferInstanceAs (Decidable (∀ v ∈ p.live i, n ≤ v.size ∨ v.keeps n ∨ v.size = 0 ∧ n + 1 < 2 ^ 30))
  | .make _ | .makeMove .. | .delete _ | .moveAssign .. | .popBack _ | .erase .. | .clear _ =>
    .isTrue trivial

theorem put_self {p : Vectors T} {i : Nat} {o : Option RawVector} {m : Buffers T} :
    (p.put i o m).live i = o := Function.update_self ..

theorem put_ne {p : Vectors T} {i j : Nat} {o : Option RawVector} {m : Buffers T} (h : j ≠ i) :
    (p.put i o m).live j = p.live j := Function.update_of_ne h ..

theorem put_put {p : Vectors T} {i : Nat} {o o' : Option RawVector} {m m' : Buffers T} :
    (p.put i o m).put i o' m' = p.put i o' m' := congrArg (Vectors.mk m') (Function.update_idem ..)

/-! ### One owner for each buffer -/

/-- Each vector holds a list, no two have a buffer in common, and a buffer that no vector has is unused. -/
structure Owned (p : Vectors T) : Prop where
  sound : p.buffers.Sound
  holds : ∀ i v, p.live i = some v → ∃ l, p.buffers.Holds v l
  unique : ∀ i j v w b, p.live i = some v → p.live j = some w → v.data = some b → w.data = some b →
    i = j
  owner : ∀ b, p.buffers.Unused b ∨ ∃ i v, p.live i = some v ∧ v.data = some b

namespace Owned

variable {p : Vectors T} {v w : RawVector} {l : List T} {i j k b : Nat} {m : Buffers T}

theorem accounted (h : p.Owned) : p.Accounted where
  objects b k := by
    constructor
    · intro hobj
      rcases h.owner b with hnone | ⟨i, v, hv, hb⟩
      · exact absurd (congrFun hnone.2 k) hobj
      · obtain ⟨l, hl⟩ := h.holds i v hv
        obtain ⟨c, -, rfl, hhas⟩ := hl.has hb
        refine ⟨i, _, hv, rfl, ?_⟩
        by_contra hle
        exact hobj (by rw [hhas.objects]; exact layout_of_le (Nat.le_of_not_lt hle))
    · rintro ⟨i, v, hv, hb, hk⟩
      obtain ⟨l, hl⟩ := h.holds i v hv
      obtain ⟨c, -, rfl, hhas⟩ := hl.has hb
      rw [hhas.objects, layout_of_lt hk]
      exact List.cons_ne_nil _ _
  once b k := by
    rcases h.owner b with hnone | ⟨i, v, hv, hb⟩
    · rw [hnone.2]
      exact Nat.zero_le _
    · obtain ⟨l, hl⟩ := h.holds i v hv
      obtain ⟨c, -, rfl, hhas⟩ := hl.has hb
      rw [hhas.objects, layout]
      exact Option.length_toList_le
  buffers b := by
    constructor
    · intro hcap
      rcases h.owner b with hnone | ⟨i, v, hv, hb⟩
      · exact absurd hnone.1 hcap
      · refine ⟨i, ⟨v, hv, hb⟩, fun j hj => ?_⟩
        obtain ⟨w, hw, hb'⟩ := hj
        exact h.unique j i w v b hw hv hb' hb
    · rintro ⟨i, ⟨v, hv, hb⟩, -⟩
      obtain ⟨l, hl⟩ := h.holds i v hv
      obtain ⟨c, -, rfl, hhas⟩ := hl.has hb
      rw [hhas.capacity]
      exact Option.some_ne_none _
  capacity i v b hv hb := by
    obtain ⟨l, hl⟩ := h.holds i v hv
    obtain ⟨c, -, rfl, hhas⟩ := hl.has hb
    exact hhas.capacity
  room i v hv := by
    obtain ⟨l, ⟨rfl, -⟩ | ⟨b', c, -, rfl, hhas⟩⟩ := h.holds i v hv
    · exact ⟨Nat.le_refl 0, fun _ => rfl⟩
    · exact ⟨hhas.room, fun hnull => by cases hnull⟩

/-- A step that touches a vector's own buffer alone. -/
theorem step (h : p.Owned) (hv : p.live i = some v) {r : RawVector × Buffers T}
    (hr : Yields True p.buffers v l r) : (p.put i (some r.1) r.2).Owned := by
  have hlocal := hr.touched trivial
  -- a buffer that another vector has is none of the vector's own, before or after
  have hapart {j : Nat} {w : RawVector} {b : Nat} (hj : j ≠ i) (hw : p.live j = some w)
      (hb : w.data = some b) : v.data ≠ some b ∧ r.1.data ≠ some b := by
    have hv' : v.data ≠ some b := fun hb' => hj (h.unique j i w v b hw hv hb hb')
    refine ⟨hv', fun hb' => ?_⟩
    have hnone := (hlocal.taken b hb').resolve_left hv'
    obtain ⟨l', hl'⟩ := h.holds j w hw
    obtain ⟨c, -, rfl, hhas⟩ := hl'.has hb
    cases hnone.1.symm.trans hhas.capacity
  refine ⟨hr.sound, fun j w hw => ?_, fun j j' w w' b hw hw' hb hb' => ?_, fun b => ?_⟩
  · by_cases hj : j = i
    · subst hj
      obtain rfl := Option.some.inj (put_self.symm.trans hw)
      exact ⟨l, hr.holds⟩
    · rw [put_ne hj] at hw
      obtain ⟨l', hl'⟩ := h.holds j w hw
      refine ⟨l', hl'.imp_right ?_⟩
      rintro ⟨b, c, hc, rfl, hhas⟩
      obtain ⟨hb, hb'⟩ := hapart hj hw rfl
      have hsame := hlocal.same b hb hb'
      exact ⟨b, c, hc, rfl, hsame.1.trans hhas.capacity, hsame.2.trans hhas.objects, hhas.room⟩
  · by_cases hj : j = i
    · by_cases hj' : j' = i
      · exact hj.trans hj'.symm
      · subst hj
        obtain rfl := Option.some.inj (put_self.symm.trans hw)
        exact absurd hb (hapart hj' (put_ne hj' ▸ hw') hb').2
    · by_cases hj' : j' = i
      · subst hj'
        obtain rfl := Option.some.inj (put_self.symm.trans hw')
        exact absurd hb' (hapart hj (put_ne hj ▸ hw) hb).2
      · exact h.unique j j' w w' b (put_ne hj ▸ hw) (put_ne hj' ▸ hw') hb hb'
  · by_cases hb' : r.1.data = some b
    · exact .inr ⟨i, r.1, put_self, hb'⟩
    · by_cases hb : v.data = some b
      · exact .inl (hlocal.left b hb hb')
      · have hsame := hlocal.same b hb hb'
        refine (h.owner b).imp (fun hnone => ⟨hsame.1.trans hnone.1, hsame.2.trans hnone.2⟩) ?_
        rintro ⟨j, w, hw, hbw⟩
        have hj : j ≠ i := by
          rintro rfl
          obtain rfl := Option.some.inj (hv.symm.trans hw)
          exact hb hbw
        exact ⟨j, w, (put_ne hj).trans hw, hbw⟩

/-- A new vector in the empty state, or one in that state that goes away. -/
theorem put_empty (h : p.Owned) (hi : ∀ v, p.live i = some v → v.data = none) {o : Option RawVector}
    (ho : ∀ v, o = some v → v = .empty) : (p.put i o p.buffers).Owned := by
  have hother {j : Nat} {w : RawVector} {b : Nat} (hw : (p.put i o p.buffers).live j = some w)
      (hb : w.data = some b) : p.live j = some w := by
    by_cases hj : j = i
    · subst hj
      obtain rfl := ho w (put_self.symm.trans hw)
      cases hb
    · exact (put_ne hj).symm.trans hw
  refine ⟨h.sound, fun j w hw => ?_, fun j j' w w' b hw hw' hb hb' =>
    h.unique j j' w w' b (hother hw hb) (hother hw' hb') hb hb', fun b => ?_⟩
  · by_cases hj : j = i
    · subst hj
      obtain rfl := ho w (put_self.symm.trans hw)
      exact ⟨[], .inl ⟨rfl, rfl⟩⟩
    · exact h.holds j w ((put_ne hj).symm.trans hw)
  · refine (h.owner b).imp_right ?_
    rintro ⟨j, w, hw, hb⟩
    have hj : j ≠ i := by
      rintro rfl
      cases (hi w hw).symm.trans hb
    exact ⟨j, w, (put_ne hj).trans hw, hb⟩

/-- A vector without a buffer takes that of another one. -/
theorem transfer (h : p.Owned) (hi : ∀ v, p.live i = some v → v.data = none)
    (hj : p.live j = some w) (hne : i ≠ j) :
    ((p.put i (some w) p.buffers).put j (some .empty) p.buffers).Owned := by
  have hcase {k : Nat} {u : RawVector} {b : Nat} (hu : ((p.put i (some w) p.buffers).put j
      (some .empty) p.buffers).live k = some u) (hb : u.data = some b) :
      k = i ∧ u = w ∨ k ≠ i ∧ k ≠ j ∧ p.live k = some u := by
    by_cases hkj : k = j
    · subst hkj
      obtain rfl := Option.some.inj (put_self.symm.trans hu)
      cases hb
    · have hu' := (put_ne hkj).symm.trans hu
      by_cases hki : k = i
      · subst hki
        exact .inl ⟨rfl, (Option.some.inj (put_self.symm.trans hu')).symm⟩
      · exact .inr ⟨hki, hkj, (put_ne hki).symm.trans hu'⟩
  refine ⟨h.sound, fun k u hu => ?_, fun k k' u u' b hu hu' hb hb' => ?_, fun b => ?_⟩
  · by_cases hkj : k = j
    · subst hkj
      obtain rfl := Option.some.inj (put_self.symm.trans hu)
      exact ⟨[], .inl ⟨rfl, rfl⟩⟩
    · have hu' := (put_ne hkj).symm.trans hu
      by_cases hki : k = i
      · subst hki
        obtain rfl := Option.some.inj (put_self.symm.trans hu')
        exact h.holds j w hj
      · exact h.holds k u ((put_ne hki).symm.trans hu')
  · rcases hcase hu hb with ⟨rfl, rfl⟩ | ⟨-, hkj, hk⟩ <;> rcases hcase hu' hb' with ⟨rfl, rfl⟩ | ⟨-, hkj', hk'⟩
    · rfl
    · exact absurd (h.unique j k' _ u' b hj hk' hb hb').symm hkj'
    · exact absurd (h.unique k j u _ b hk hj hb hb') hkj
    · exact h.unique k k' u u' b hk hk' hb hb'
  · refine (h.owner b).imp_right ?_
    rintro ⟨k, u, hu, hb⟩
    by_cases hkj : k = j
    · subst hkj
      obtain rfl := Option.some.inj (hj.symm.trans hu)
      exact ⟨i, w, (put_ne hne).trans put_self, hb⟩
    · have hki : k ≠ i := by
        rintro rfl
        cases (hi u hu).symm.trans hb
      exact ⟨k, u, (put_ne hkj).trans ((put_ne hki).trans hu), hb⟩

end Owned

/-! ### The calls -/

section Calls

variable {leave : T → T} {default : T} {room sizeof : Nat} {p : Vectors T} {v w : RawVector}
  {l : List T} {i j k n : Nat} {E : Fault → Prop} {x : Except Fault (RawVector × Buffers T)}

theorem get_eq (h : p.live i = some v) : p.get i = .ok v := by rw [get, h]

theorem Owned.update (h : p.Owned) (hv : p.live i = some v)
    (hx : Ensures x E fun r => ∃ l, Yields True p.buffers v l r) :
    Ensures (p.update i x) E Owned := hx.bind fun _ ⟨_, hr⟩ => h.step hv hr

/-- A constructor. -/
theorem Owned.updateNew (h : p.Owned) (hi : p.live i = none)
    (hx : Ensures x E fun r => ∃ l, Yields True p.buffers .empty l r) :
    Ensures (p.update i x) E Owned := by
  have hnew : (p.put i (some .empty) p.buffers).Owned :=
    h.put_empty (fun v hv => by cases hi.symm.trans hv) fun v hv => (Option.some.inj hv).symm
  refine hx.bind fun r ⟨l, hr⟩ => ?_
  have hstep := hnew.step put_self hr
  rwa [put_put] at hstep

theorem Owned.element (h : p.Owned) (hw : p.live j = some w) (hk : k < w.size) :
    ∃ l b c, c ≤ 30 ∧ w = ⟨some b, l.length, 2 ^ c⟩ ∧ p.buffers.Has b (2 ^ c) l ∧ k < l.length := by
  obtain ⟨l, hl⟩ := h.holds j w hw
  have hsize := hl.size
  obtain ⟨b, c, hc, rfl, hhas⟩ := hl.of_ne_nil (List.ne_nil_of_length_pos (by omega))
  exact ⟨l, b, c, hc, rfl, hhas, hk⟩

theorem keeps_succ (h : v.size = 0 ∨ v.size + 1 ≤ v.capacity) :
    v.size = 0 ∨ v.keeps (v.size + 1) := by
  rcases Nat.eq_zero_or_pos v.size with hzero | hpos
  · exact .inl hzero
  · exact .inr ⟨hpos, h.resolve_left (Nat.ne_of_gt hpos)⟩

theorem fits_succ (h : v.size = 0 ∨ v.keeps (v.size + 1)) :
    v.keeps (v.size + 1) ∨ v.size + 1 + 1 < 2 ^ 30 := h.symm.imp_right fun hzero => by omega

/-- Once a vector has been given room, the elements of all vectors are where they were. -/
theorem Owned.reserved (h : p.Owned) (hv : p.live i = some v) {r : RawVector × Buffers T}
    (hr : v.Reserved p.buffers l n r) (hcalm : v.size = 0 ∨ v.keeps n) :
    (p.put i (some r.1) r.2).Owned ∧
      ∀ j w, p.live j = some w → 0 < w.size → (p.put i (some r.1) r.2).live j = some w := by
  refine ⟨h.step hv (hr.yields.mono fun _ => hcalm), fun j w hw hpos => ?_⟩
  by_cases hj : j = i
  · subst hj
    obtain rfl := Option.some.inj (hv.symm.trans hw)
    rw [put_self, hr.same (hcalm.resolve_left (Nat.ne_of_gt hpos))]
  · rw [put_ne hj, hw]

theorem Owned.pushBack {val : Argument T} (h : p.Owned) (hv : p.live i = some v) (hval : p.Refers val)
    (hcalm : v.size = 0 ∨ v.keeps (v.size + 1)) :
    Ensures (do p.update i (v.pushBack leave room sizeof (← p.refer val) p.buffers)) (NoRoom room sizeof)
      Owned := by
  obtain ⟨l, hl⟩ := h.holds i v hv
  have hpush {ref : Reference T} (href : ∀ r, v.Reserved p.buffers l (v.size + 1) r →
      ∃ x, ref.read r.2 = .ok x ∧ True) :
      Ensures (p.update i (v.pushBack leave room sizeof ref p.buffers)) (NoRoom room sizeof) Owned :=
    h.update hv <| (pushBack_spec h.sound hl (fits_succ hcalm) href).mono (fun _ h => h)
      fun r ⟨_, _, _, hr⟩ => ⟨_, hr.mono fun _ => hcalm⟩
  cases val with
  | value x => exact hpush fun _ _ => ⟨x, rfl, trivial⟩
  | element j k =>
    obtain ⟨w, hw, hk⟩ := hval
    rw [refer, get_eq hw]
    refine hpush fun r hr => ?_
    obtain ⟨h₁, hsame⟩ := h.reserved hv hr hcalm
    obtain ⟨L, b, c, -, rfl, hhas, hk⟩ := h₁.element (hsame j w hw (Nat.zero_lt_of_lt hk)) hk
    exact ⟨_, hhas.read hk, trivial⟩

/-- The object that is moved from stays in its vector. -/
theorem Owned.pushBackMove {val : Argument T} (h : p.Owned) (hv : p.live i = some v)
    (hval : p.Refers val) (hcalm : v.size = 0 ∨ v.keeps (v.size + 1)) :
    Ensures (do p.update i (v.pushBackMove leave room sizeof (← p.refer val) p.buffers))
      (NoRoom room sizeof) Owned := by
  cases val with
  | value x => exact Owned.pushBack h hv hval hcalm
  | element j k =>
    obtain ⟨l, hl⟩ := h.holds i v hv
    obtain ⟨w, hw, hk⟩ := hval
    have href : p.refer (.element j k) = .ok (.place w.data k) := by
      rw [refer, get_eq hw]
      rfl
    rw [href, ok_bind]
    refine Ensures.bind (Q := fun r => (p.put i (some r.1) r.2).Owned) ?_ fun r hr => by
      obtain ⟨v', m'⟩ := r
      exact hr
    refine (RawVector.reserve_spec h.sound hl (fits_succ hcalm)).bind fun r hr => ?_
    obtain ⟨h₁, hsame⟩ := h.reserved hv hr hcalm
    have hw₁ := hsame j w hw (Nat.zero_lt_of_lt hk)
    obtain ⟨L, b, c, hc, rfl, hhas, hk⟩ := h₁.element hw₁ hk
    obtain ⟨v₁, m₁⟩ := r
    dsimp only [Reference.moveFrom] at hhas hw₁ h₁ ⊢
    have hlen : (L.set k (leave L[k])).length = L.length := List.length_set
    have hset := hhas.yields (L.set k (leave L[k])) h₁.sound hc (hlen.trans_le hhas.room)
    rw [hlen] at hset
    have h₂ := h₁.step hw₁ hset
    have hmove : m₁.moveFrom leave (some b) k = .ok (L[k], m₁.fill b (layout (L.set k (leave L[k])))) :=
      hhas.moveFrom hk leave
    rw [hmove, ok_bind]
    dsimp only at h₂ ⊢
    have hv₂ : ((p.put i (some v₁) m₁).put j (some ⟨some b, L.length, 2 ^ c⟩)
        (m₁.fill b (layout (L.set k (leave L[k]))))).live i = some v₁ := by
      by_cases hj : i = j
      · subst hj
        rw [put_self, ← hw₁, put_self]
      · rw [put_ne hj, put_self]
    obtain ⟨l₂, hl₂⟩ := h₂.holds i v₁ hv₂
    obtain ⟨b₁, hb₁⟩ := hr.data
    have hcap := hr.capacity
    have hsize : v₁.size = v.size := hr.yields.holds.size.trans hl.size.symm
    have hsize₂ := hl₂.size
    obtain ⟨m₃, hconstruct, hyields⟩ := append_spec h₂.sound hl₂ hb₁
      (show l₂.length < v₁.capacity by dsimp only at hcap; omega) L[k]
    have h₃ := h₂.step hv₂ hyields
    have hput : ((p.put i (some v₁) m₁).put j (some ⟨some b, L.length, 2 ^ c⟩)
        (m₁.fill b (layout (L.set k (leave L[k]))))).put i (some ⟨v₁.data, v₁.size + 1, v₁.capacity⟩) m₃ =
        p.put i (some ⟨v₁.data, v₁.size + 1, v₁.capacity⟩) m₃ := by
      refine congrArg (Vectors.mk m₃) (funext fun i' => ?_)
      by_cases hi : i' = i
      · rw [hi, Function.update_self, Function.update_self]
      · rw [Function.update_of_ne hi, Function.update_of_ne hi]
        by_cases hj : i' = j
        · rw [hj, put_self, hw]
        · rw [put_ne hj, put_ne hi]
    have hconstruct' : (m₁.fill b (layout (L.set k (leave L[k])))).construct v₁.data v₁.size L[k] =
        .ok m₃ := hconstruct
    change Ensures (Buffers.construct (m₁.fill b _) v₁.data v₁.size L[k] >>= _) _ _
    rw [hconstruct']
    exact (congrArg Owned hput).mp h₃

theorem Owned.insert {val : Argument T} {pos : Nat} (h : p.Owned) (hv : p.live i = some v)
    (hval : p.Refers val) (hpos : pos ≤ v.size) (hcalm : v.size = 0 ∨ v.keeps (v.size + 1)) :
    Ensures (do p.update i (v.insert leave default room sizeof pos (← p.refer val) p.buffers))
      (NoRoom room sizeof) Owned := by
  by_cases hlast : pos = v.size
  · simp only [RawVector.insert, if_pos hlast]
    exact h.pushBack hv hval hcalm
  · obtain ⟨hpositive, hroom⟩ : v.keeps (v.size + 1) := hcalm.resolve_left (by omega)
    simp only [RawVector.insert, if_neg hlast, if_neg (show ¬v.capacity = v.size by omega)]
    obtain ⟨l, b, c, hc, rfl, hhas, -⟩ := h.element (k := pos) hv (by omega)
    dsimp only at hlast hpos hroom
    have hshift {ref : Reference T} (href : ∀ L : List T, L.length = l.length + 1 →
        ∃ x, ref.read (p.buffers.fill b (layout L)) = .ok x ∧ True) :
        Ensures (p.update i ((⟨some b, l.length, 2 ^ c⟩ : RawVector).insertShift leave default pos ref
          p.buffers)) (NoRoom room sizeof) Owned := by
      obtain ⟨r, x, hr, -, hyields⟩ : ∃ r x, RawVector.insertShift leave default _ pos ref _ = .ok r ∧ _ :=
        insertShift_spec h.sound hhas hc (show pos < l.length by omega) hroom href
      rw [hr]
      exact h.step hv hyields
    cases val with
    | value x => exact hshift fun _ _ => ⟨x, rfl, trivial⟩
    | element j k =>
      obtain ⟨w, hw, hk⟩ := hval
      rw [refer, get_eq hw]
      obtain ⟨L', b', c', -, rfl, hhas', hk⟩ := h.element hw hk
      refine hshift fun L hL => ?_
      by_cases hb : b' = b
      · subst hb
        obtain rfl := h.unique i j _ _ b' hv hw rfl rfl
        have hlen : l.length = L'.length :=
          congrArg RawVector.size (Option.some.inj (hv.symm.trans hw))
        exact ⟨_, (hhas.fill L (by omega)).read (by omega), trivial⟩
      · exact ⟨_, (hhas'.fill_ne hb).read hk, trivial⟩

theorem Owned.moveAssign (h : p.Owned) (hv : p.live i = some v) (hw : p.live j = some w) :
    ∃ m, v.delete p.buffers = .ok m ∧ Ensures ((⟨m, p.live⟩ : Vectors T).moveInto i j) E Owned := by
  obtain ⟨l, hl⟩ := h.holds i v hv
  obtain ⟨m, hdelete, hyields⟩ := delete_spec h.sound hl
  have h₁ : (p.put i (some .empty) m).Owned := h.step hv hyields
  refine ⟨m, hdelete, ?_⟩
  have hget : (⟨m, p.live⟩ : Vectors T).get j = .ok w := get_eq hw
  rw [moveInto, hget, ok_bind]
  by_cases hj : i = j
  · subst hj
    rw [put_put]
    exact h₁
  · have h₂ := h₁.transfer (i := i) (fun u hu => ?_) ((put_ne (Ne.symm hj)).trans hw) hj
    · rw [put_put] at h₂
      exact h₂
    · obtain rfl := Option.some.inj (put_self.symm.trans hu)
      rfl

theorem Owned.copyAssign (h : p.Owned) (hv : p.live i = some v) (hw : p.live j = some w)
    (hn : i = j ∨ w.size + 1 < 2 ^ 30) :
    Ensures (p.apply leave default room sizeof (.copyAssign i j)) (NoRoom room sizeof) Owned := by
  obtain ⟨l, hl⟩ := h.holds i v hv
  obtain ⟨m, hclear, hyields⟩ := clear_spec h.sound hl
  have h₁ : (p.put i (some .empty) m).Owned := h.step hv hyields
  have hw₁ : ∃ u, (p.put i (some .empty) m).live j = some u ∧ u.size + 1 < 2 ^ 30 := by
    by_cases hj : i = j
    · subst hj
      exact ⟨.empty, put_self, by decide⟩
    · exact ⟨w, (put_ne (Ne.symm hj)).trans hw, hn.resolve_left hj⟩
  obtain ⟨u, hu, hsize⟩ := hw₁
  obtain ⟨l', hl'⟩ := h₁.holds j u hu
  have hupdate : p.update i (v.clear p.buffers) = .ok (p.put i (some .empty) m) := by
    rw [Vectors.update, hclear]
    rfl
  rw [Vectors.apply, get_eq hv, ok_bind, hupdate, ok_bind, get_eq put_self, ok_bind, get_eq hu, ok_bind]
  rw [hl'.size] at hsize
  exact h₁.update put_self <| (copyFrom_spec h₁.sound hl' hsize).mono (fun _ h => h) fun _ hr => ⟨_, hr⟩

/-- Each call that meets the condition keeps one owner for each buffer. -/
theorem Owned.apply (h : p.Owned) {c : VectorCall T} (ha : p.Admits c) (hc : p.Careful c) :
    Ensures (p.apply leave default room sizeof c) (NoRoom room sizeof) Owned := by
  have hlive {i : Nat} (hi : p.live i ≠ none) : ∃ v, p.live i = some v := Option.ne_none_iff_exists'.mp hi
  have hnone {i : Nat} (hi : p.live i = none) (v : RawVector) : p.live i = some v → v.data = none :=
    fun hv => by cases hi.symm.trans hv
  cases c with
  | make i => exact h.put_empty (hnone ha) fun v hv => (Option.some.inj hv).symm
  | makeSize i n =>
    exact h.updateNew ha <| (ofSize_spec h.sound hc).mono (fun _ h => h) fun _ hr => ⟨_, hr⟩
  | makeCopy i j =>
    obtain ⟨w, hw⟩ := hlive ha.2
    obtain ⟨l, hl⟩ := h.holds j w hw
    rw [Vectors.apply, get_eq hw, ok_bind]
    exact h.updateNew ha.1 <| (copyFrom_spec h.sound hl (hl.size ▸ hc w hw)).mono (fun _ h => h)
      fun _ hr => ⟨_, hr⟩
  | makeMove i j =>
    obtain ⟨w, hw⟩ := hlive ha.2
    rw [Vectors.apply, moveInto, get_eq hw]
    refine h.transfer (hnone ha.1) hw ?_
    rintro rfl
    cases ha.1.symm.trans hw
  | makeList i il =>
    exact h.updateNew ha <| (ofList_spec h.sound hc).mono (fun _ h => h) fun _ hr => ⟨_, hr⟩
  | delete i =>
    obtain ⟨v, hv⟩ := hlive ha
    obtain ⟨l, hl⟩ := h.holds i v hv
    obtain ⟨m, hdelete, hyields⟩ := delete_spec h.sound hl
    rw [Vectors.apply, get_eq hv, ok_bind, hdelete]
    have h₁ : (p.put i (some .empty) m).Owned := h.step hv hyields
    have h₂ := h₁.put_empty (i := i) (o := none) (fun u hu => ?_) nofun
    · rw [put_put] at h₂
      exact h₂
    · obtain rfl := Option.some.inj (put_self.symm.trans hu)
      rfl
  | copyAssign i j =>
    obtain ⟨v, hv⟩ := hlive ha.1
    obtain ⟨w, hw⟩ := hlive ha.2
    exact h.copyAssign hv hw (hc.imp_right fun hsize => hsize w hw)
  | moveAssign i j =>
    obtain ⟨v, hv⟩ := hlive ha.1
    obtain ⟨w, hw⟩ := hlive ha.2
    obtain ⟨m, hdelete, hmove⟩ := h.moveAssign (E := (NoRoom room sizeof)) hv hw
    rw [Vectors.apply, get_eq hv, ok_bind, hdelete]
    exact hmove
  | pushBack i val =>
    obtain ⟨v, hv⟩ := hlive ha.1
    rw [Vectors.apply, get_eq hv]
    exact h.pushBack hv ha.2 (keeps_succ (hc v hv))
  | pushBackMove i val =>
    obtain ⟨v, hv⟩ := hlive ha.1
    rw [Vectors.apply, get_eq hv]
    exact h.pushBackMove hv ha.2 (keeps_succ (hc v hv))
  | popBack i =>
    obtain ⟨v, hv, hpos⟩ := ha
    obtain ⟨l, hl⟩ := h.holds i v hv
    obtain ⟨r, hr, hyields⟩ := popBack_spec h.sound hl (List.ne_nil_of_length_pos (hl.size ▸ hpos))
    rw [Vectors.apply, get_eq hv, ok_bind, hr]
    exact h.step hv hyields
  | insert i pos val =>
    obtain ⟨⟨v, hv, hpos⟩, hval⟩ := ha
    rw [Vectors.apply, get_eq hv]
    exact h.insert hv hval hpos (keeps_succ (hc v hv))
  | erase i first last =>
    obtain ⟨v, hv, hle, hlast⟩ := ha
    obtain ⟨l, hl⟩ := h.holds i v hv
    obtain ⟨r, hr, hyields⟩ : ∃ r, v.erase leave first last _ = .ok r ∧ _ :=
      erase_spec h.sound hl hle (hl.size ▸ hlast)
    rw [Vectors.apply, get_eq hv, ok_bind, hr]
    exact h.step hv hyields
  | reserve i n =>
    obtain ⟨v, hv⟩ := hlive ha
    obtain ⟨l, hl⟩ := h.holds i v hv
    have hcalm := hc v hv
    rw [Vectors.apply, get_eq hv, ok_bind]
    refine h.update hv <| (RawVector.reserve_spec h.sound hl (hcalm.imp_right And.right)).mono
      (fun _ h => h) fun r hr => ⟨l, hr.yields.mono fun _ => ?_⟩
    exact hcalm.symm.imp_left And.left
  | resize i n =>
    obtain ⟨v, hv⟩ := hlive ha
    obtain ⟨l, hl⟩ := h.holds i v hv
    have hcalm := hc v hv
    rw [Vectors.apply, get_eq hv, ok_bind]
    refine h.update hv <| (RawVector.resize_spec h.sound hl
      (hcalm.imp_right fun h => h.imp_right And.right)).mono (fun _ h => h)
      fun r hr => ⟨_, hr.mono fun _ => ?_⟩
    exact hcalm.imp_right fun h => h.symm.imp_left And.left
  | clear i =>
    obtain ⟨v, hv⟩ := hlive ha
    obtain ⟨l, hl⟩ := h.holds i v hv
    obtain ⟨m, hclear, hyields⟩ := clear_spec h.sound hl
    rw [Vectors.apply, get_eq hv, ok_bind, hclear]
    exact h.step hv hyields

end Calls

/-! ### Runs -/

/-- A program with no vector yet; a command says what memory is left. -/
def machine (leave : T → T) (default : T) (sizeof : Nat) :
    Lib.Machine (Vectors T) (Nat × VectorCall T) Fault where
  start p := p = .empty
  admits p c := p.Admits c.2
  apply p c := p.apply leave default c.1 sizeof c.2

/-- In every state of a run whose calls meet the condition, the elements and the buffers are accounted for,
and a next call that meets it ends so as well, unless the memory that is left is less than a buffer of 2 ^ 30
objects takes. -/
theorem run_accounted {leave : T → T} {default : T} {sizeof : Nat} {p : Vectors T}
    (hr : (machine leave default sizeof).Run (fun p c => p.Careful c.2) p) :
    p.Accounted ∧ ∀ room c, p.Admits c → p.Careful c →
      Ensures (p.apply leave default room sizeof c) (NoRoom room sizeof) Accounted := by
  have howned : p.Owned := by
    refine hr.invariant ?_ fun p p' c hp ha hc happly => (hp.apply ha hc).of_ok happly
    rintro p rfl
    exact ⟨fun _ _ => ⟨rfl, rfl⟩, nofun, nofun, fun _ => .inl ⟨rfl, rfl⟩⟩
  exact ⟨howned.accounted, fun room c ha hc => (howned.apply ha hc).mono (fun _ h => h)
    fun _ h => h.accounted⟩

/-- Elements are shifted, copied to another vector and moved back from it, and a vector is assigned to
itself. -/
theorem run_accounted_assigned : ∃ p, (machine (T := Nat) (fun _ => 0) 0 8).Run
    (fun p c => p.Careful c.2) p ∧
    decide (p.live 0 = some ⟨some 1, 2, 8⟩ ∧ p.live 1 = some ⟨some 2, 0, 2⟩ ∧
      p.buffers.objects 1 0 = [5] ∧ p.buffers.objects 1 1 = [5]) = true ∧ p.Accounted := by
  have hcheck (p : Vectors Nat) (c : Nat × VectorCall Nat)
      (hc : decide (p.Admits c.2 ∧ p.Careful c.2) = true) :
      (machine (fun _ => 0) 0 8).admits p c ∧ p.Careful c.2 :=
    of_decide_eq_true (p := p.Admits c.2 ∧ p.Careful c.2) hc
  obtain ⟨p, hp, hP⟩ := Machine.exists_run (M := machine (T := Nat) (fun _ => 0) 0 8) hcheck rfl
    [(4096, .make 0), (4096, .pushBack 0 (.value 7)), (4096, .insert 0 0 (.value 5)),
      (4096, .insert 0 1 (.element 0 0)), (4096, .makeCopy 1 0), (4096, .erase 1 2 3),
      (4096, .moveAssign 0 1), (4096, .copyAssign 1 1)]
    (P := fun p => decide (p.live 0 = some ⟨some 1, 2, 8⟩ ∧ p.live 1 = some ⟨some 2, 0, 2⟩ ∧
      p.buffers.objects 1 0 = [5] ∧ p.buffers.objects 1 1 = [5])) (by decide +kernel)
  exact ⟨p, hp, hP, (run_accounted hp).1⟩

/-- A vector with an element that is given a larger buffer: the old buffer is freed, and the object in it
has not been destroyed. -/
theorem reserve_leaks : ¬∀ p : Vectors Nat, (machine id 0 8).Run (fun _ _ => True) p → p.Accounted := by
  intro hall
  have hcheck (p : Vectors Nat) (c : Nat × VectorCall Nat) (hc : decide (p.Admits c.2) = true) :
      (machine id 0 8).admits p c ∧ True := ⟨of_decide_eq_true (p := p.Admits c.2) hc, trivial⟩
  obtain ⟨p, hp, hP⟩ := Machine.exists_run (M := machine (T := Nat) id 0 8) hcheck rfl
    [(4096, .make 0), (4096, .pushBack 0 (.value 7)), (4096, .reserve 0 5)]
    (P := fun p => decide (p.buffers.objects 0 0 ≠ [] ∧ p.buffers.capacity 0 = none)) (by decide +kernel)
  obtain ⟨hobj, hfreed⟩ := of_decide_eq_true hP
  have haccounted := hall p hp
  obtain ⟨i, v, hv, hb, -⟩ := (haccounted.objects 0 0).mp hobj
  cases hfreed.symm.trans (haccounted.capacity i v 0 hv hb)

end SupOS.Libcpp.Vectors
