import SupOS.Libcpp.Layout

/-! What each member of a vector does: the list that the vector holds afterwards, and that it touches no
buffer but the vector's own unless it has to move elements to a larger one. -/

namespace SupOS.Libcpp

open Lib

variable {T : Type}

namespace Buffers

variable {m m' m'' : Buffers T} {v v' v'' : RawVector} {l l' : List T} {b c n k : Nat}
  {f : Nat → List T}

/-- No buffer, and no object. -/
def Unused (m : Buffers T) (b : Nat) : Prop := m.capacity b = none ∧ m.objects b = fun _ => []

/-- Nothing has been made of the buffers to come. -/
def Sound (m : Buffers T) : Prop := ∀ b, m.fresh ≤ b → m.Unused b

theorem Sound.lt_fresh (hs : m.Sound) (h : m.capacity b = some c) : b < m.fresh := by
  by_contra hle
  cases (hs b (Nat.le_of_not_lt hle)).1.symm.trans h

theorem Sound.fill (hs : m.Sound) (h : m.capacity b = some c) : (m.fill b f).Sound := fun b' hb' => by
  have hlt := hs.lt_fresh h
  exact ⟨(hs b' hb').1, (fill_objects_ne (Nat.ne_of_gt (Nat.lt_of_lt_of_le hlt hb'))).trans (hs b' hb').2⟩

/-- The memory with a buffer more. -/
def grown (m : Buffers T) (n : Nat) : Buffers T :=
  { m with capacity := Function.update m.capacity m.fresh (some n), fresh := m.fresh + 1 }

theorem grown_has (hs : m.Sound) : (m.grown n).Has m.fresh n [] :=
  ⟨Function.update_self .., (hs m.fresh (Nat.le_refl _)).2.trans layout_nil.symm, Nat.zero_le n⟩

theorem grown_sound (hs : m.Sound) : (m.grown n).Sound := fun b (hb : m.fresh + 1 ≤ b) =>
  ⟨(Function.update_of_ne (by omega) ..).trans (hs b (by omega)).1, (hs b (by omega)).2⟩

theorem Has.grown (h : m.Has b c l) (hs : m.Sound) : (m.grown n).Has b c l :=
  ⟨(Function.update_of_ne (Nat.ne_of_lt (hs.lt_fresh h.capacity)) ..).trans h.capacity, h.objects, h.room⟩

/-- What stops a vector that grows: `malloc` has less left than the largest buffer takes. -/
def NoRoom (room sizeof : Nat) (e : Fault) : Prop := e = .outOfMemory ∧ room < 2 ^ 30 * sizeof

theorem allocate_grown {room sizeof : Nat} (hn : n ≤ 2 ^ 30) :
    Ensures (m.allocate room sizeof n) (NoRoom room sizeof) (· = (m.fresh, m.grown n)) :=
  .ite (fun hfull => ⟨rfl, Nat.lt_of_lt_of_le hfull
    ((Nat.mod_le _ _).trans (Nat.mul_le_mul_right sizeof hn))⟩) fun _ => rfl

/-- The memory without a buffer. -/
def freed (m : Buffers T) (b : Nat) : Buffers T :=
  { m with capacity := Function.update m.capacity b none }

theorem deallocate_eq (h : m.capacity b = some c) : m.deallocate b = .ok (m.freed b) := by
  simp only [deallocate, h]
  rfl

theorem Sound.freed (hs : m.Sound) : (m.freed b).Sound := fun b' hb' => by
  refine ⟨?_, (hs b' hb').2⟩
  by_cases h : b' = b
  · rw [h]
    exact Function.update_self ..
  · exact (Function.update_of_ne h ..).trans (hs b' hb').1

theorem Has.freed (h : m.Has b c l) {b' : Nat} (hne : b ≠ b') : (m.freed b').Has b c l :=
  ⟨(Function.update_of_ne hne ..).trans h.capacity, h.objects, h.room⟩

/-- The vector holds the list. -/
def Holds (m : Buffers T) (v : RawVector) (l : List T) : Prop :=
  v = .empty ∧ l = [] ∨ ∃ b, ∃ k ≤ 30, v = ⟨some b, l.length, 2 ^ k⟩ ∧ m.Has b (2 ^ k) l

/-- From `m` to `m'` the vector has touched its own buffer alone: one that it has left is freed and
without objects, and one that it has taken was unused. -/
structure Local (m : Buffers T) (v : RawVector) (m' : Buffers T) (v' : RawVector) : Prop where
  same : ∀ b, v.data ≠ some b → v'.data ≠ some b →
    m'.capacity b = m.capacity b ∧ m'.objects b = m.objects b
  left : ∀ b, v.data = some b → v'.data ≠ some b → m'.Unused b
  taken : ∀ b, v'.data = some b → v.data = some b ∨ m.Unused b

theorem Local.refl (m : Buffers T) (v : RawVector) : Local m v m v :=
  ⟨fun _ _ _ => ⟨rfl, rfl⟩, fun _ h h' => absurd h h', fun _ => .inl⟩

theorem Local.trans (h : Local m v m' v') (h' : Local m' v' m'' v'') : Local m v m'' v'' where
  same b hb hb'' := by
    by_cases hb' : v'.data = some b
    · have hnone := (h.taken b hb').resolve_left hb
      have hleft := h'.left b hb' hb''
      exact ⟨hleft.1.trans hnone.1.symm, hleft.2.trans hnone.2.symm⟩
    · have h₁ := h.same b hb hb'
      have h₂ := h'.same b hb' hb''
      exact ⟨h₂.1.trans h₁.1, h₂.2.trans h₁.2⟩
  left b hb hb'' := by
    by_cases hb' : v'.data = some b
    · exact h'.left b hb' hb''
    · have h₁ := h.left b hb hb'
      have h₂ := h'.same b hb' hb''
      exact ⟨h₂.1.trans h₁.1, h₂.2.trans h₁.2⟩
  taken b hb'' := by
    rcases h'.taken b hb'' with hb' | hnone
    · exact h.taken b hb'
    · by_cases hb : v.data = some b
      · exact .inl hb
      · by_cases hb' : v'.data = some b
        · exact h.taken b hb'
        · have h₁ := h.same b hb hb'
          exact .inr ⟨h₁.1.symm.trans hnone.1, h₁.2.symm.trans hnone.2⟩

/-- What has come of a vector: the list that it holds, and, if the step is `calm`, that it has touched its
own buffer alone. -/
structure Yields (calm : Prop) (m : Buffers T) (v : RawVector) (l : List T) (r : RawVector × Buffers T) :
    Prop where
  sound : r.2.Sound
  holds : r.2.Holds r.1 l
  touched : calm → Local m v r.2 r.1

theorem Yields.trans {calm calm' : Prop} {r r' : RawVector × Buffers T} (h : Yields calm m v l r)
    (h' : Yields calm' r.2 r.1 l' r') : Yields (calm ∧ calm') m v l' r' :=
  ⟨h'.sound, h'.holds, fun hc => (h.touched hc.1).trans (h'.touched hc.2)⟩

theorem Yields.mono {calm calm' : Prop} {r : RawVector × Buffers T} (h : Yields calm m v l r)
    (hc : calm' → calm) : Yields calm' m v l r :=
  ⟨h.sound, h.holds, fun hcalm => h.touched (hc hcalm)⟩

theorem Holds.refl (h : m.Holds v l) (hs : m.Sound) : Yields True m v l (v, m) :=
  ⟨hs, h, fun _ => .refl m v⟩

theorem Holds.size (h : m.Holds v l) : v.size = l.length := by
  obtain ⟨rfl, rfl⟩ | ⟨b, k, hk, rfl, hhas⟩ := h
  · rfl
  · rfl

/-- A vector with a buffer. -/
theorem Holds.has (h : m.Holds v l) (hb : v.data = some b) :
    ∃ k ≤ 30, v = ⟨some b, l.length, 2 ^ k⟩ ∧ m.Has b (2 ^ k) l := by
  obtain ⟨rfl, -⟩ | ⟨b', k, hk, rfl, hhas⟩ := h
  · cases hb
  · obtain rfl := Option.some.inj hb
    exact ⟨k, hk, rfl, hhas⟩

theorem Holds.of_ne_nil (h : m.Holds v l) (hl : l ≠ []) :
    ∃ b, ∃ k ≤ 30, v = ⟨some b, l.length, 2 ^ k⟩ ∧ m.Has b (2 ^ k) l :=
  h.resolve_left fun h' => hl h'.2

/-- Other objects in the vector's own buffer. -/
theorem Has.yields (h : m.Has b (2 ^ k) l) (l' : List T) (hs : m.Sound) (hk : k ≤ 30)
    (hl : l'.length ≤ 2 ^ k) :
    Yields True m ⟨some b, l.length, 2 ^ k⟩ l' (⟨some b, l'.length, 2 ^ k⟩, m.fill b (layout l')) where
  sound := hs.fill h.capacity
  holds := .inr ⟨b, k, hk, rfl, h.fill l' hl⟩
  touched _ := {
    same := fun _ hb' _ => ⟨rfl, fill_objects_ne fun heq => hb' (congrArg some heq.symm)⟩
    left := fun _ hb' hne => absurd hb' hne
    taken := fun _ hb' => .inl hb' }

end Buffers

namespace RawVector

open Buffers

variable {leave : T → T} {default : T} {room sizeof : Nat} {m : Buffers T} {v : RawVector} {l : List T}
  {b c k n : Nat}

/-- The old buffer, once its objects have been moved into the new one: it is freed, and they are left in
it. -/
theorem moveOut_eq (h : m.Has b c l) (hne : b ≠ n) (h' : m.Has n k []) (hroom : l.length ≤ k) :
    (⟨some b, l.length, c⟩ : RawVector).moveOut leave n m =
      .ok (((m.fill b (layout (l.map leave))).fill n (layout l)).freed b) := by
  have hloop := move_range (i := 0) (d := 0) (n := l.length) leave (m := m) (b := b) (c := c) (l := l)
    h hne h'.capacity (by omega) (by omega) fun j _ _ => by
      rw [h'.objects, layout_of_le (Nat.zero_le _)]
  have hmoved : Buffers.moved leave l (0 + l.length) = l.map leave := by
    rw [Nat.zero_add, Buffers.moved, List.take_length, List.drop_length, List.append_nil]
  have hobj : (fun j => if 0 + 0 ≤ j ∧ j < 0 + l.length + 0 then layout l (j - 0) else m.objects n j) =
      layout l := funext fun j => by
    split_ifs
    · rfl
    · rw [h'.objects, layout_of_le (Nat.zero_le _), layout_of_le (by omega)]
  rw [hmoved, hobj] at hloop
  rw [← List.range_eq_range'] at hloop
  simp only [moveOut]
  exact (congrArg (· >>= _) hloop).trans (deallocate_eq h.capacity)

/-- What has come of `reserve`. -/
structure Reserved (v : RawVector) (m : Buffers T) (l : List T) (n : Nat) (r : RawVector × Buffers T) :
    Prop where
  yields : Yields (v.size = 0 ∨ v.keeps n) m v l r
  data : ∃ b, r.1.data = some b
  capacity : n ≤ r.1.capacity
  same : v.keeps n → r = (v, m)
  moved : ¬v.keeps n → strategy n = .ok r.1.capacity

theorem reserve_spec (hs : m.Sound) (h : m.Holds v l) (hn : v.keeps n ∨ n + 1 < 2 ^ 30) :
    Ensures (v.reserve leave room sizeof n m) (NoRoom room sizeof) (v.Reserved m l n) := by
  unfold reserve
  by_cases hkeeps : v.keeps n
  · rw [if_pos hkeeps]
    refine ⟨(h.refl hs).mono fun _ => trivial, ?_, hkeeps.2, fun _ => rfl, absurd hkeeps⟩
    obtain ⟨rfl, -⟩ | ⟨b, k, -, rfl, -⟩ := h
    · exact absurd hkeeps.1 (Nat.lt_irrefl 0)
    · exact ⟨b, rfl⟩
  · rw [if_neg hkeeps]
    obtain ⟨k, hk, hstrategy, hlt⟩ := strategy_pow (hn.resolve_left hkeeps)
    rw [hstrategy, ok_bind]
    refine (allocate_grown (Nat.pow_le_pow_right (by decide) hk)).bind fun r hr => ?_
    subst hr
    dsimp only
    have hnew : (m.grown (2 ^ k)).Has m.fresh (2 ^ k) [] := grown_has hs
    have hgrown := grown_sound (n := 2 ^ k) hs
    have hle : l.length ≤ 2 ^ k := by
      by_contra hfull
      have hsize := h.size
      refine hkeeps ⟨by omega, ?_⟩
      obtain ⟨rfl, rfl⟩ | ⟨b, j, -, rfl, hhas⟩ := h
      · exact absurd (Nat.zero_le _) hfull
      · have := hhas.room
        change n ≤ 2 ^ j
        omega
    obtain ⟨rfl, rfl⟩ | ⟨b, j, -, rfl, hhas⟩ := h
    · refine ⟨⟨hgrown, .inr ⟨_, k, hk, rfl, hnew⟩, fun _ => ⟨fun b _ hb => ⟨?_, rfl⟩, nofun, ?_⟩⟩,
        ⟨_, rfl⟩, by change n ≤ 2 ^ k; omega, fun h => absurd h hkeeps, fun _ => hstrategy⟩
      · exact Function.update_of_ne (fun heq => hb (congrArg some heq.symm)) ..
      · rintro b ⟨⟩
        exact .inr (hs _ (Nat.le_refl _))
    · have hlt' := hs.lt_fresh hhas.capacity
      have hne : b ≠ m.fresh := Nat.ne_of_lt hlt'
      have hold : (m.grown (2 ^ k)).Has b (2 ^ j) l := hhas.grown hs
      rw [moveOut_eq hold hne hnew hle, ok_bind]
      have hmap : ((m.grown (2 ^ k)).fill b (layout (l.map leave))).Has b (2 ^ j) (l.map leave) :=
        hold.fill _ (by rw [List.length_map]; exact hhas.room)
      refine ⟨⟨((hgrown.fill hold.capacity).fill hnew.capacity).freed, .inr ⟨_, k, hk, rfl, ?_⟩,
        fun hcalm => ⟨fun b' hb' hb => ?_, fun b' hb' hb => ?_, ?_⟩⟩,
        ⟨_, rfl⟩, by change n ≤ 2 ^ k; omega, fun h => absurd h hkeeps, fun _ => hstrategy⟩
      · exact ((hnew.fill_ne hne.symm).fill l hle).freed hne.symm
      · have hne₁ : b' ≠ b := fun heq => hb' (congrArg some heq.symm)
        have hne₂ : b' ≠ m.fresh := fun heq => hb (congrArg some heq.symm)
        refine ⟨?_, ?_⟩
        · exact (Function.update_of_ne hne₁ ..).trans (Function.update_of_ne hne₂ ..)
        · exact (fill_objects_ne hne₂).trans (fill_objects_ne hne₁)
      · obtain rfl := Option.some.inj hb'
        have hnil : l = [] := List.length_eq_zero_iff.mp (hcalm.resolve_right hkeeps)
        refine ⟨Function.update_self .., ?_⟩
        exact (fill_objects_ne hne).trans (hmap.objects.trans (by rw [hnil]; exact layout_nil))
      · rintro b' ⟨⟩
        exact .inr (hs _ (Nat.le_refl _))

/-- The construction at the end, in a vector with a place left. -/
theorem append_spec (hs : m.Sound) (h : m.Holds v l) (hdata : v.data = some b)
    (hroom : l.length < v.capacity) (x : T) :
    ∃ m', m.construct v.data v.size x = .ok m' ∧
      Yields True m v (l ++ [x]) (⟨v.data, v.size + 1, v.capacity⟩, m') := by
  obtain ⟨k, hk, rfl, hhas⟩ := h.has hdata
  have hlen : (l ++ [x]).length = l.length + 1 := List.length_append
  have hyields := hhas.yields (l ++ [x]) hs hk (by rw [hlen]; exact hroom)
  rw [hlen] at hyields
  exact ⟨_, hhas.construct hroom, hyields⟩

/-- The capacity of a vector that has been asked for room. -/
def Sized (v : RawVector) (n : Nat) (v' : RawVector) : Prop :=
  if v.keeps n then v'.capacity = v.capacity else strategy n = .ok v'.capacity

/-- `push_back` of what is still there once the vector has room. -/
theorem pushBack_spec {val : Reference T} {Q : T → Prop} (hs : m.Sound) (h : m.Holds v l)
    (hn : v.keeps (v.size + 1) ∨ v.size + 1 + 1 < 2 ^ 30)
    (hval : ∀ r, v.Reserved m l (v.size + 1) r → ∃ x, val.read r.2 = .ok x ∧ Q x) :
    Ensures (v.pushBack leave room sizeof val m) (NoRoom room sizeof) fun r => v.Sized (v.size + 1) r.1 ∧
      ∃ x, Q x ∧ Yields (v.size = 0 ∨ v.keeps (v.size + 1)) m v (l ++ [x]) r := by
  refine (reserve_spec hs h hn).bind fun r hr => ?_
  obtain ⟨x, hx, hQ⟩ := hval r hr
  obtain ⟨b, hb⟩ := hr.data
  have hcap := hr.capacity
  have hsize := h.size
  obtain ⟨m', hconstruct, hyields⟩ := append_spec hr.yields.sound hr.yields.holds hb
    (show l.length < r.1.capacity by omega) x
  have hsized : v.Sized (v.size + 1) r.1 := by
    unfold Sized
    split
    · rw [hr.same ‹_›]
    · exact hr.moved ‹_›
  obtain ⟨v₁, m₁⟩ := r
  dsimp only at hx hconstruct hyields ⊢
  rw [hx, ok_bind, hconstruct]
  exact ⟨hsized, x, hQ, (hr.yields.trans hyields).mono fun hcalm => ⟨hcalm, trivial⟩⟩

theorem strategy_one : strategy 1 = .ok 4 := rfl

/-- Each element of the list is pushed: the first one takes a buffer for 4. -/
theorem ofList_spec {il : List T} (hs : m.Sound) (hil : il.length ≤ 4) :
    Ensures (ofList leave room sizeof il m) (NoRoom room sizeof) (Yields True m empty il) := by
  have hloop (il' : List T) : ∀ (l : List T) (r : RawVector × Buffers T), Yields True m empty l r →
      l.length + il'.length ≤ 4 → (l ≠ [] → r.1.capacity = 4) →
      Ensures (il'.foldlM (fun r t => r.1.pushBack leave room sizeof (.value t) r.2) r) (NoRoom room sizeof)
        (Yields True m empty (l ++ il')) := by
    induction il' with
    | nil =>
      intro l r hr _ _
      rw [List.append_nil]
      exact hr
    | cons t il' ih =>
      intro l r hr hlen hcap
      rw [List.length_cons] at hlen
      have hsize := hr.holds.size
      have hcalm : r.1.size = 0 ∨ r.1.keeps (r.1.size + 1) := by
        by_cases hl : l = []
        · exact .inl (by rw [hsize, hl]; rfl)
        · have hpos := List.length_pos_iff.mpr hl
          exact .inr ⟨by omega, by rw [hcap hl]; omega⟩
      rw [List.foldlM_cons]
      refine (pushBack_spec (Q := (· = t)) hr.sound hr.holds ?_ fun _ _ => ⟨t, rfl, rfl⟩).bind
        fun r' ⟨hsized, x, hx, hr'⟩ => ?_
      · exact hcalm.symm.imp_right fun hzero => by omega
      · subst hx
        have htotal := ih (l ++ [x]) r' ((hr.trans hr').mono fun _ => ⟨trivial, hcalm⟩)
          (by rw [List.length_append, List.length_singleton]; omega) fun _ => ?_
        · rwa [List.append_assoc] at htotal
        · unfold Sized at hsized
          split at hsized
          · rename_i hkeeps
            have hl : l ≠ [] := List.ne_nil_of_length_pos (hsize ▸ hkeeps.1)
            exact hsized.trans (hcap hl)
          · rename_i hkeeps
            rw [hcalm.resolve_right hkeeps] at hsized
            exact (Except.ok.inj (strategy_one.symm.trans hsized)).symm
  have hempty : m.Holds empty [] := .inl ⟨rfl, rfl⟩
  refine (reserve_spec hs hempty (.inr (by omega))).bind fun r hr => ?_
  exact hloop il [] r (hr.yields.mono fun _ => .inl rfl) (by rw [List.length_nil]; omega)
    fun hne => absurd rfl hne

/-- `free` of the vector's buffer, once no object is left in it. -/
theorem deallocate_spec (h : m.Has b c []) (hs : m.Sound) (k : Nat) :
    ∃ m', m.deallocate b = .ok m' ∧ Yields True m ⟨some b, 0, k⟩ [] (empty, m') := by
  refine ⟨_, deallocate_eq h.capacity, hs.freed, .inl ⟨rfl, rfl⟩, fun _ =>
    ⟨fun b' hb' _ => ⟨?_, rfl⟩, fun b' hb' _ => ?_, nofun⟩⟩
  · exact Function.update_of_ne (fun heq => hb' (congrArg some heq.symm)) ..
  · obtain rfl := Option.some.inj hb'
    exact ⟨Function.update_self .., h.objects.trans layout_nil⟩

theorem delete_spec (hs : m.Sound) (h : m.Holds v l) :
    ∃ m', v.delete m = .ok m' ∧ Yields True m v [] (empty, m') := by
  obtain ⟨rfl, rfl⟩ | ⟨b, k, hk, rfl, hhas⟩ := h
  · exact ⟨m, rfl, Holds.refl (.inl ⟨rfl, rfl⟩) hs⟩
  · have hdestroy := hhas.destroyFrom (Nat.zero_le _)
    rw [Nat.sub_zero, ← List.range_eq_range', List.take_zero] at hdestroy
    have hnone := hhas.yields [] hs hk (Nat.zero_le _)
    obtain ⟨m', hfree, hyields⟩ :=
      deallocate_spec (hhas.fill [] (Nat.zero_le _)) hnone.sound (2 ^ k)
    refine ⟨m', ?_, (hnone.trans hyields).mono fun _ => ⟨trivial, trivial⟩⟩
    simp only [delete, hdestroy, ok_bind]
    exact hfree

theorem clear_spec (hs : m.Sound) (h : m.Holds v l) :
    ∃ m', v.clear m = .ok (empty, m') ∧ Yields True m v [] (empty, m') := by
  obtain ⟨m', hdelete, hyields⟩ := delete_spec hs h
  refine ⟨m', ?_, hyields⟩
  rw [clear, hdelete]
  rfl

theorem ofSize_spec (hs : m.Sound) (hn : n + 1 < 2 ^ 30) :
    Ensures (ofSize default room sizeof n m) (NoRoom room sizeof)
      (Yields True m empty (List.replicate n default)) := by
  obtain ⟨k, hk, hstrategy, hlt⟩ := strategy_pow hn
  rw [ofSize, hstrategy, ok_bind]
  refine (allocate_grown (Nat.pow_le_pow_right (by decide) hk)).bind fun r hr => ?_
  subst hr
  dsimp only
  have hnew : (m.grown (2 ^ k)).Has m.fresh (2 ^ k) [] := grown_has hs
  have hall := hnew.constructAll (n := n) (x := default) (by rw [List.length_nil]; omega)
  rw [List.length_nil, ← List.range_eq_range', List.nil_append] at hall
  rw [hall]
  have hlen : (List.replicate n default).length = n := List.length_replicate
  refine ⟨(grown_sound hs).fill hnew.capacity, .inr ⟨_, k, hk, ?_, hnew.fill _ (by omega)⟩,
    fun _ => ⟨fun b _ hb => ?_, nofun, ?_⟩⟩
  · rw [hlen]
  · have hne : b ≠ m.fresh := fun heq => hb (congrArg some heq.symm)
    exact ⟨Function.update_of_ne hne .., fill_objects_ne hne⟩
  · rintro b ⟨⟩
    exact .inr (hs _ (Nat.le_refl _))

/-- The elements of another vector are copied into an empty one. -/
theorem copyFrom_spec {oth : RawVector} (hs : m.Sound) (h : m.Holds oth l)
    (hn : l.length + 1 < 2 ^ 30) :
    Ensures (empty.copyFrom leave room sizeof oth m) (NoRoom room sizeof) (Yields True m empty l) := by
  have hempty : m.Holds empty [] := .inl ⟨rfl, rfl⟩
  unfold copyFrom
  rw [h.size]
  refine (reserve_spec hs hempty (.inr hn)).bind fun r hr => ?_
  obtain ⟨b, hb⟩ := hr.data
  obtain ⟨k, hk, hv, hhas⟩ := hr.yields.holds.has hb
  have hlocal := hr.yields.touched (.inl rfl)
  have hcap : l.length ≤ 2 ^ k := by
    have := hr.capacity
    rw [hv] at this
    exact this
  obtain ⟨v₁, m₁⟩ := r
  dsimp only at hb hv hhas hlocal ⊢
  subst hv
  have hcopy : (List.range l.length).foldlM
      (fun m i => do m.construct (some b) i (← m.read oth.data i)) m₁ =
        .ok (m₁.fill b (layout l)) := by
    obtain ⟨rfl, rfl⟩ | ⟨b', j, -, rfl, hhas'⟩ := h
    · exact congrArg Except.ok (fill_self hhas.objects).symm
    · have hne : b' ≠ b := by
        rintro rfl
        have hnone := (hlocal.taken b' rfl).resolve_left nofun
        cases hnone.1.symm.trans hhas'.capacity
      have hsame := hlocal.same b' nofun fun heq => hne (Option.some.inj heq).symm
      exact hhas.copyAll ⟨hsame.1.trans hhas'.capacity, hsame.2.trans hhas'.objects, hhas'.room⟩ hne hcap
  have hyields := hhas.yields l hr.yields.sound hk hcap
  dsimp only
  rw [hcopy]
  exact (hr.yields.trans hyields).mono fun _ => ⟨.inl rfl, trivial⟩

theorem popBack_spec (hs : m.Sound) (h : m.Holds v l) (hl : l ≠ []) :
    ∃ r, v.popBack m = .ok r ∧ Yields True m v (l.take (l.length - 1)) r := by
  obtain ⟨b, k, hk, rfl, hhas⟩ := h.of_ne_nil hl
  have hpos := List.length_pos_iff.mpr hl
  have hlen : (l.take (l.length - 1)).length = l.length - 1 := List.length_take_of_le (by omega)
  have hroom := hhas.room
  have hyields := hhas.yields (l.take (l.length - 1)) hs hk (by omega)
  rw [hlen] at hyields
  refine ⟨_, ?_, hyields⟩
  rw [popBack, decide_eq_true hpos, assert_true, ok_bind]
  dsimp only
  rw [hhas.destroy (by omega)]
  rfl

theorem erase_spec {first last : Nat} (hs : m.Sound) (h : m.Holds v l) (hle : first ≤ last)
    (hlast : last ≤ l.length) :
    ∃ r, v.erase leave first last m = .ok r ∧ Yields True m v (l.take first ++ l.drop last) r := by
  by_cases hdiff : last - first = 0
  · obtain rfl : first = last := by omega
    rw [erase, if_pos hdiff, List.take_append_drop]
    exact ⟨_, rfl, h.refl hs⟩
  · obtain ⟨b, k, hk, rfl, hhas⟩ := h.of_ne_nil (List.ne_nil_of_length_pos (by omega))
    obtain ⟨L, hmove, hlen, htake⟩ := hhas.shiftDown (show first < last by omega) hlast leave
    have hL : (m.fill b (layout L)).Has b (2 ^ k) L := hhas.fill _ (hlen.trans_le hhas.room)
    have hdestroy := hL.destroyBack (n := last - first) (by omega)
    rw [hlen, htake, fill_fill] at hdestroy
    have hlen' : (l.take first ++ l.drop last).length = l.length - (last - first) := by
      rw [List.length_append, List.length_take, List.length_drop]
      omega
    have hroom := hhas.room
    have hyields := hhas.yields (l.take first ++ l.drop last) hs hk (by omega)
    rw [hlen'] at hyields
    refine ⟨_, ?_, hyields⟩
    rw [erase, if_neg hdiff]
    dsimp only
    rw [hmove, ok_bind, hdestroy]
    rfl

theorem resize_spec (hs : m.Sound) (h : m.Holds v l)
    (hn : n ≤ v.size ∨ v.keeps n ∨ n + 1 < 2 ^ 30) :
    Ensures (v.resize leave default room sizeof n m) (NoRoom room sizeof)
      (Yields (n ≤ v.size ∨ v.size = 0 ∨ v.keeps n) m v
        (l.take n ++ List.replicate (n - l.length) default)) := by
  have hsize := h.size
  unfold resize
  refine .ite (fun heq => ?_) fun hne => .ite (fun hlt => ?_) fun hge => ?_
  · rw [heq, hsize, Nat.sub_self, List.replicate_zero, List.append_nil, List.take_length]
    exact (h.refl hs).mono fun _ => trivial
  · obtain ⟨b, k, hk, rfl, hhas⟩ := h.of_ne_nil (List.ne_nil_of_length_pos (by omega))
    have hlen : (l.take n).length = n := List.length_take_of_le (by omega)
    have hroom := hhas.room
    have hyields := hhas.yields (l.take n) hs hk (by omega)
    rw [hlen] at hyields
    change n < l.length at hlt
    rw [show n - l.length = 0 by omega, List.replicate_zero, List.append_nil]
    dsimp only
    rw [hhas.destroyFrom (by omega)]
    exact hyields.mono fun _ => trivial
  · refine (reserve_spec hs h (hn.resolve_left (by omega))).bind fun r hr => ?_
    obtain ⟨b, hb⟩ := hr.data
    obtain ⟨k, hk, hv, hhas⟩ := hr.yields.holds.has hb
    have hcap : n ≤ 2 ^ k := by
      have := hr.capacity
      rw [hv] at this
      exact this
    obtain ⟨v₁, m₁⟩ := r
    dsimp only at hv hhas ⊢
    subst hv
    have hlen : (l ++ List.replicate (n - l.length) default).length = n := by
      rw [List.length_append, List.length_replicate]
      omega
    have hyields := hhas.yields (l ++ List.replicate (n - l.length) default) hr.yields.sound hk
      (by omega)
    rw [hlen] at hyields
    rw [hsize, hhas.constructAll (by omega), List.take_of_length_le (by omega)]
    refine (hr.yields.trans hyields).mono fun hcalm => ⟨?_, trivial⟩
    rw [hsize]
    exact hcalm.resolve_left (by omega)

section inserted

variable {pos i : Nat} {x : T} (hpos : pos < l.length)
include hpos

theorem getElem_inserted_lt (hi : i < pos) : (l.take pos ++ x :: l.drop pos)[i]? = l[i]? := by
  have htake : (l.take pos).length = pos := List.length_take_of_le (Nat.le_of_lt hpos)
  rw [List.getElem?_append_left (by omega), List.getElem?_take_of_lt hi]

theorem getElem_inserted : (l.take pos ++ x :: l.drop pos)[pos]? = some x := by
  have htake : (l.take pos).length = pos := List.length_take_of_le (Nat.le_of_lt hpos)
  rw [List.getElem?_append_right (by omega), htake, Nat.sub_self]
  rfl

theorem getElem_inserted_succ (hi : pos ≤ i) :
    (l.take pos ++ x :: l.drop pos)[i + 1]? = l[i]? := by
  have htake : (l.take pos).length = pos := List.length_take_of_le (Nat.le_of_lt hpos)
  rw [List.getElem?_append_right (by omega), htake, show i + 1 - pos = i - pos + 1 by omega,
    List.getElem?_cons_succ, List.getElem?_drop, show pos + (i - pos) = i by omega]

theorem length_inserted : (l.take pos ++ x :: l.drop pos).length = l.length + 1 := by
  rw [List.length_append, List.length_cons, List.length_take, List.length_drop]
  omega

/-- The list with an element more at a position. -/
theorem insert_list {L : List T} (hlen : L.length = l.length + 1) (hbelow : ∀ k < pos, L[k]? = l[k]?)
    (habove : ∀ k, pos ≤ k → k < l.length → L[k + 1]? = l[k]?) :
    L.set pos x = l.take pos ++ x :: l.drop pos := by
  refine List.ext_getElem? fun k => ?_
  rcases Nat.lt_trichotomy k pos with hk | rfl | hk
  · rw [List.getElem?_set_ne (by omega), hbelow k hk, getElem_inserted_lt hpos hk]
  · rw [List.getElem?_set_self (by omega), getElem_inserted hpos]
  · obtain ⟨j, rfl⟩ : ∃ j, k = j + 1 := ⟨k - 1, by omega⟩
    rw [List.getElem?_set_ne (by omega), getElem_inserted_succ hpos (by omega)]
    by_cases hj : j < l.length
    · exact habove j (by omega) hj
    · rw [List.getElem?_eq_none (by omega), List.getElem?_eq_none (by omega)]

end inserted

/-- The new element is assigned last: its reference is read once the others have been shifted. -/
theorem insertShift_spec {pos : Nat} {val : Reference T} {Q : T → Prop} (hs : m.Sound)
    (hhas : m.Has b (2 ^ k) l) (hk : k ≤ 30) (hpos : pos < l.length) (hroom : l.length < 2 ^ k)
    (hval : ∀ L : List T, L.length = l.length + 1 →
      ∃ x, val.read (m.fill b (layout L)) = .ok x ∧ Q x) :
    ∃ r x, (⟨some b, l.length, 2 ^ k⟩ : RawVector).insertShift leave default pos val m = .ok r ∧ Q x ∧
      Yields True m ⟨some b, l.length, 2 ^ k⟩ (l.take pos ++ x :: l.drop pos) r := by
  have hlen₀ : (l ++ [default]).length = l.length + 1 := List.length_append
  have hhas₀ : (m.fill b (layout (l ++ [default]))).Has b (2 ^ k) (l ++ [default]) :=
    hhas.fill _ (by omega)
  obtain ⟨L, hmove, hlen, hbelow, hmid, -⟩ :=
    hhas₀.moveBackward (show pos + (l.length - pos) < _ by omega) leave
  rw [fill_fill] at hmove
  have hhas₁ : (m.fill b (layout L)).Has b (2 ^ k) L := hhas.fill _ (by omega)
  obtain ⟨x, hx, hQ⟩ := hval L (by omega)
  have hlist : L.set pos x = l.take pos ++ x :: l.drop pos := by
    refine insert_list hpos (by omega) (fun j hj => ?_) fun j hj hlt => ?_
    · rw [hbelow j hj, List.getElem?_append_left (by omega)]
    · rw [hmid j hj (by omega), List.getElem?_append_left hlt]
  have hlen' := length_inserted (x := x) hpos
  have hyields := hhas.yields (l.take pos ++ x :: l.drop pos) hs hk (by omega)
  rw [hlen'] at hyields
  refine ⟨_, x, ?_, hQ, hyields⟩
  rw [insertShift, decide_eq_true hroom, assert_true, ok_bind]
  dsimp only
  rw [hhas.construct hroom, ok_bind, hmove, ok_bind, hx, ok_bind, hhas₁.assign (by omega), fill_fill,
    hlist]
  rfl

/-- In a full vector the old buffer is left, with its objects. -/
theorem insertFull_spec {pos : Nat} {x : T} (hs : m.Sound) (hhas : m.Has b (2 ^ k) l)
    (hpos : pos < l.length) (hn : l.length + 1 + 1 < 2 ^ 30) :
    Ensures ((⟨some b, l.length, 2 ^ k⟩ : RawVector).insertFull leave room sizeof pos (.value x) m)
      (NoRoom room sizeof)
      (Yields False m ⟨some b, l.length, 2 ^ k⟩ (l.take pos ++ x :: l.drop pos)) := by
  obtain ⟨j, hj, hstrategy, hlt⟩ := strategy_pow hn
  unfold insertFull
  dsimp only
  rw [hstrategy, ok_bind]
  refine (allocate_grown (Nat.pow_le_pow_right (by decide) hj)).bind fun r hr => ?_
  subst hr
  dsimp only
  have hne : b ≠ m.fresh := Nat.ne_of_lt (hs.lt_fresh hhas.capacity)
  have hnew : (m.grown (2 ^ j)).Has m.fresh (2 ^ j) [] := grown_has hs
  have hold : (m.grown (2 ^ j)).Has b (2 ^ k) l := hhas.grown hs
  have hmoved (i : Nat) : (Buffers.moved leave l i).length = l.length := length_moved leave
  have hnil (i : Nat) : (m.grown (2 ^ j)).objects m.fresh i = [] := by
    rw [hnew.objects, layout_of_le (Nat.zero_le _)]
  have hfirst := move_range (i := 0) (d := 0) (n := pos) leave (m := m.grown (2 ^ j)) (l := l) hold hne
    hnew.capacity (by omega) (by omega) fun i _ _ => hnil i
  simp only [← List.range_eq_range', Nat.add_zero, Nat.zero_add, Nat.sub_zero, Nat.zero_le, true_and,
    hnil] at hfirst
  have hold₁ := (hold.fill (Buffers.moved leave l pos) (by rw [hmoved]; exact hhas.room)).fill_ne
    (f := fun i => if i < pos then layout l i else []) hne
  have hsecond := move_range (i := pos) (d := 1) (n := l.length - pos) leave hold₁ hne hnew.capacity
    (by omega) (by omega) fun i hi _ => by rw [fill_objects, if_neg (by omega)]
  have hplace : (fun i => if pos + 1 ≤ i ∧ i < l.length + 1 then layout l (i - 1)
      else if i < pos then layout l i else []) =
      Function.update (layout (l.take pos ++ x :: l.drop pos)) pos [] := funext fun i => by
    rcases Nat.lt_trichotomy i pos with hi | rfl | hi
    · rw [if_neg (by omega), if_pos hi, Function.update_of_ne (by omega), layout, layout,
        getElem_inserted_lt hpos hi]
    · rw [if_neg (by omega), if_neg (by omega), Function.update_self]
    · obtain ⟨i, rfl⟩ : ∃ i', i = i' + 1 := ⟨i - 1, by omega⟩
      rw [Function.update_of_ne (by omega), if_neg (show ¬i + 1 < pos by omega), Nat.add_sub_cancel]
      simp only [layout]
      rw [getElem_inserted_succ hpos (by omega)]
      by_cases hlast : i < l.length
      · rw [if_pos (by omega)]
      · rw [if_neg (by omega), List.getElem?_eq_none (by omega)]
        rfl
  rw [show pos + (l.length - pos) = l.length by omega, fill_objects, fill_comm hne.symm, fill_fill,
    fill_fill, hplace] at hsecond
  have hlen := length_inserted (x := x) hpos
  rw [hfirst, ok_bind, hsecond, ok_bind]
  have hcap : ((m.grown (2 ^ j)).fill b (layout (Buffers.moved leave l l.length))).capacity m.fresh =
      some (2 ^ j) := hnew.capacity
  change Ensures (Buffers.construct _ (some m.fresh) pos x >>= _) _ _
  rw [construct_hole hcap (by omega) (getElem_inserted hpos), ok_bind]
  refine ⟨((grown_sound hs).fill hold.capacity).fill hnew.capacity,
    .inr ⟨m.fresh, j, hj, ?_, ?_⟩, False.elim⟩
  · rw [hlen]
  · exact (hnew.fill_ne hne.symm).fill _ (by omega)

/-- `insert` of a value before the end. -/
theorem insert_spec {pos : Nat} {x : T} (hs : m.Sound) (h : m.Holds v l) (hpos : pos < l.length)
    (hn : v.keeps (v.size + 1) ∨ v.size + 1 + 1 < 2 ^ 30) :
    Ensures (v.insert leave default room sizeof pos (.value x) m) (NoRoom room sizeof)
      (Yields (v.keeps (v.size + 1)) m v (l.take pos ++ x :: l.drop pos)) := by
  obtain ⟨b, k, hk, rfl, hhas⟩ := h.of_ne_nil (List.ne_nil_of_length_pos (Nat.zero_lt_of_lt hpos))
  have hroom := hhas.room
  rw [insert, if_neg (Nat.ne_of_lt hpos)]
  refine .ite (fun hfull => ?_) fun hfull => ?_
  · have hcalm : ¬(⟨some b, l.length, 2 ^ k⟩ : RawVector).keeps (l.length + 1) := fun hkeeps => by
      have hle : l.length + 1 ≤ 2 ^ k := hkeeps.2
      change 2 ^ k = l.length at hfull
      omega
    exact (insertFull_spec hs hhas hpos (hn.resolve_left hcalm)).mono (fun _ h => h)
      fun r hr => hr.mono hcalm
  · change ¬2 ^ k = l.length at hfull
    obtain ⟨r, _, hr, rfl, hyields⟩ : ∃ r y, insertShift leave default _ pos (.value x) m = .ok r ∧
        y = x ∧ _ := insertShift_spec hs hhas hk hpos (by omega) fun _ _ => ⟨x, rfl, rfl⟩
    rw [hr]
    exact hyields.mono fun _ => trivial

end RawVector

end SupOS.Libcpp
