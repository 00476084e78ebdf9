import SupOS.Libcpp.StringSteps

/-! The strings of a program one call after another: which calls do what they do to lists of bytes. -/

namespace SupOS.Libcpp

open Lib

def Relation.onLists (l l' : List UInt8) : Relation → Bool
  | .eq => decide (l = l')
  | .ne => decide (l ≠ l')
  | .lt => BasicString.precedes l l'
  | .le => !BasicString.precedes l' l
  | .gt => BasicString.precedes l' l
  | .ge => !BasicString.precedes l l'

namespace Objects

variable {α : Type} (t : Objects α)

def Live (i : Nat) : Prop := (t.objects i).isSome = true

instance (i : Nat) : Decidable (t.Live i) := inferInstanceAs (Decidable (_ = true))

/-- The bytes of a list that is there. -/
def list (t : Objects (List UInt8)) (i : Nat) : List UInt8 := (t.objects i).getD []

def string (t : Objects BasicString) (i : Nat) : BasicString := (t.objects i).getD .empty

end Objects

namespace StringCall

/-- What a call does to the lists of bytes, and its result. -/
def onLists (t : Objects (List UInt8)) : StringCall → Objects (List UInt8) × Option Bool
  | construct => (t.add [], none)
  | constructCString s => (t.add (cString s), none)
  | constructBytes s => (t.add s, none)
  | constructFill c n => (t.add (List.replicate n c), none)
  | copy i => (t.add (t.list i), none)
  | move i => ((t.put i []).add (t.list i), none)
  | assignCString i s => (t.put i (cString s), none)
  | assign i j => (t.put i (t.list j), none)
  | moveAssign i j => ((t.put i (t.list j)).put j [], none)
  | append i j => (t.put i (t.list i ++ t.list j), none)
  | pushBack i x => (t.put i (t.list i ++ (x.onList (t.list i)).toList), none)
  | resize i n c => (t.put i ((t.list i ++ List.replicate (n - (t.list i).length) c).take n), none)
  | erase i first last => (t.put i ((t.list i).take first ++ (t.list i).drop last), none)
  | substr i pos len => (t.add (((t.list i).drop pos).take len), none)
  | compare r i j => (t, some (r.onLists (t.list i) (t.list j)))
  | destroy i => (t.destroy i, none)

/-- The calls that a program may make: on objects that are there, with positions in their lists. -/
def Admits (t : Objects (List UInt8)) : StringCall → Prop
  | construct => True
  | constructCString s | constructBytes s => s.length < 2 ^ 63
  | constructFill _ n => n < 2 ^ 63
  | copy i | move i | destroy i => t.Live i
  | assignCString i s => t.Live i ∧ s.length < 2 ^ 63
  | assign i j | moveAssign i j | append i j | compare _ i j => t.Live i ∧ t.Live j
  | pushBack i (.value _) => t.Live i
  | pushBack i (.own k) => t.Live i ∧ k < (t.list i).length
  | resize i n _ => t.Live i ∧ n < 2 ^ 64
  | erase i first last => t.Live i ∧ first ≤ last ∧ last ≤ (t.list i).length
  | substr i pos len => t.Live i ∧ pos < 2 ^ 64 ∧ len < 2 ^ 64

/-- No request is made for room that `strategy` cannot give; no string with a NUL is copied, nor a part with
one taken; a part ends within the string, which has a buffer; `erase` finds all that it reads in the buffer;
a byte of the string itself is pushed without a new buffer; and strings are ordered whose first difference
is on one side of 128. -/
def Careful (t : Objects BasicString) (ls : Objects (List UInt8)) : StringCall → Prop
  | constructCString s => (cString s).length + 2 < 2 ^ 30
  | constructBytes s => s.length + 2 < 2 ^ 30
  | constructFill _ n => n + 2 < 2 ^ 30
  | copy i => (0 : UInt8) ∉ ls.list i ∧ (ls.list i).length + 2 < 2 ^ 30
  | assignCString i s => (t.string i).Grants ((cString s).length + 1)
  | assign i j => (t.string i).Grants ((ls.list j).length + 1)
  | append i j => (t.string i).Grants ((ls.list i).length + (ls.list j).length + 1)
  | pushBack i (.value _) => (t.string i).Grants ((ls.list i).length + 1)
  | pushBack i (.own _) => (t.string i).keeps ((ls.list i).length + 1)
  | resize i n _ => (ls.list i).length < n → (t.string i).Grants n
  | erase i first last =>
    first = last ∨ (ls.list i).length + (last - first) ≤ (t.string i).capacity
  | substr i pos len =>
    (ls.list i).length < pos ∨ ((t.string i).data ≠ none ∧
      (len = npos ∨ pos + len ≤ (ls.list i).length) ∧
      (0 : UInt8) ∉ ((ls.list i).drop pos).take len ∧
      (((ls.list i).drop pos).take len).length + 2 < 2 ^ 30)
  | compare r i j => r = .eq ∨ r = .ne ∨ BasicString.Alike (ls.list i) (ls.list j)
  | construct | move _ | moveAssign _ _ | destroy _ => True

instance (t : Objects (List UInt8)) (c : StringCall) : Decidable (c.Admits t) := by
  unfold Admits
  split <;> infer_instance

instance (t : Objects BasicString) (ls : Objects (List UInt8)) (c : StringCall) :
    Decidable (c.Careful t ls) := by
  unfold Careful
  split <;> infer_instance

end StringCall

namespace BasicString

variable {room n i j : Nat} {junk : Nat → UInt8} {l l' : List UInt8} {s : BasicString}
  {t : Objects BasicString} {ls : Objects (List UInt8)}

/-- Each string holds the bytes of its list. -/
structure Refines (t : Objects BasicString) (ls : Objects (List UInt8)) : Prop where
  count : t.count = ls.count
  objects : ∀ i, Option.Rel Holds (t.objects i) (ls.objects i)

theorem Refines.get (h : Refines t ls) (hi : ls.Live i) :
    ∃ s, t.get i = .ok s ∧ t.string i = s ∧ s.Holds (ls.list i) := by
  have hrel := h.objects i
  unfold Objects.Live at hi
  unfold Objects.get Objects.string Objects.list
  cases hl : ls.objects i with
  | none =>
    rw [hl] at hi
    cases hi
  | some l =>
    rw [hl] at hrel
    cases ht : t.objects i with
    | none =>
      rw [ht] at hrel
      cases hrel
    | some s =>
      rw [ht] at hrel
      cases hrel with
      | some hs => exact ⟨s, rfl, rfl, hs⟩

theorem rel_update {f : Nat → Option BasicString} {g : Nat → Option (List UInt8)}
    (h : ∀ k, Option.Rel Holds (f k) (g k)) (i : Nat) {x : Option BasicString}
    {y : Option (List UInt8)} (hxy : Option.Rel Holds x y) (k : Nat) :
    Option.Rel Holds (Function.update f i x k) (Function.update g i y k) := by
  by_cases hk : k = i
  · subst hk
    rw [Function.update_self, Function.update_self]
    exact hxy
  · rw [Function.update_of_ne hk, Function.update_of_ne hk]
    exact h k

theorem Refines.put (h : Refines t ls) (i : Nat) (hs : s.Holds l) :
    Refines (t.put i s) (ls.put i l) :=
  ⟨h.count, rel_update h.objects i (.some hs)⟩

theorem Refines.destroy (h : Refines t ls) (i : Nat) : Refines (t.destroy i) (ls.destroy i) :=
  ⟨h.count, rel_update h.objects i .none⟩

theorem Refines.add (h : Refines t ls) (hs : s.Holds l) : Refines (t.add s) (ls.add l) :=
  ⟨congrArg (· + 1) h.count, by
    rw [Objects.add, h.count]
    exact rel_update h.objects ls.count (.some hs)⟩

/-- A string may change where its bytes do not. -/
theorem Refines.put_same (h : Refines t ls) (hi : ls.Live i) (hs : s.Holds (ls.list i)) :
    Refines (t.put i s) ls := by
  obtain ⟨l, hl⟩ := Option.isSome_iff_exists.mp hi
  rw [Objects.list, hl] at hs
  have hput := h.put i hs
  have hsame : ls.put i l = ls := by
    rw [Objects.put, ← hl, Function.update_eq_self]
  rwa [← hsame]

theorem holds_empty : empty.Holds [] := .inl ⟨rfl, rfl⟩

/-! ### Comparisons -/

theorem Refines.cStrs (h : Refines t ls) (hi : ls.Live i) (hj : ls.Live j)
    (hni : n ≤ (ls.list i).length) (hnj : n ≤ (ls.list j).length) :
    Ensures (cStrs room junk t i j n) (· = .outOfMemory) fun r => Refines r.1 ls ∧
      r.2 = compareBytes ((ls.list i).take n) ((ls.list j).take n) := by
  unfold BasicString.cStrs
  obtain ⟨s, hget, -, hs⟩ := h.get hi
  rw [hget, ok_bind]
  refine hs.cStr.bind fun s' hs' => ?_
  obtain ⟨b, hb, -⟩ := hs'
  have h₁ := h.put_same hi hb.holds
  obtain ⟨str, hget', -, hstr⟩ := h₁.get hj
  dsimp only
  rw [hget', ok_bind]
  refine hstr.cStr.bind fun str' hstr' => ?_
  obtain ⟨b', hb', -⟩ := hstr'
  have h₂ := h₁.put_same hj hb'.holds
  obtain ⟨u, hu, -, hu'⟩ := h₂.get hi
  obtain ⟨v, hv, -, hv'⟩ := h₂.get hj
  rw [hu, ok_bind, hu'.load_le hni, ok_bind, hv, ok_bind, hv'.load_le hnj, ok_bind]
  exact ⟨h₂, rfl⟩

/-- Where no byte differs, the lengths decide. -/
theorem orders_of_length {d : Int} (ha : Alike l l') (hlt : d < 0 ↔ l.length < l'.length)
    (hgt : 0 < d ↔ l'.length < l.length) :
    Orders (if compareBytes l l' ≠ 0 then compareBytes l l' else d) l l' := by
  rcases compareBytes_spec ha with h | ⟨hzero, hless, hmore, heq⟩
  · by_cases hzero : compareBytes l l' = 0
    · rw [if_neg (not_not.mpr hzero)]
      obtain rfl := h.eq.mp hzero
      obtain rfl : d = 0 := by omega
      rwa [hzero] at h
    · rwa [if_pos hzero]
  · rw [if_neg (not_not.mpr hzero)]
    refine ⟨?_, ?_, ?_⟩
    · rw [hless, decide_eq_true_iff, hlt]
    · rw [hmore, decide_eq_true_iff, hgt]
    · rw [heq]
      omega

/-- The result of the member `compare`. -/
theorem Refines.compare (h : Refines t ls) (hi : ls.Live i) (hj : ls.Live j)
    (ha : Alike (ls.list i) (ls.list j)) :
    Ensures (compare room junk t i j) (· = .outOfMemory) fun r => Refines r.1 ls ∧
      Orders r.2 (ls.list i) (ls.list j) := by
  obtain ⟨s, hget, -, hs⟩ := h.get hi
  obtain ⟨str, hget', -, hstr⟩ := h.get hj
  have hsize := hs.size
  have hsize' := hstr.size
  have hnil : ∀ d : Int, (ls.list i).length = 0 ∨ (ls.list j).length = 0 →
      (d < 0 ↔ (ls.list i).length < (ls.list j).length) →
      (0 < d ↔ (ls.list j).length < (ls.list i).length) → Orders d (ls.list i) (ls.list j) := by
    intro d hnil hlt hgt
    have horders := orders_of_length ha hlt hgt
    have hzero : compareBytes (ls.list i) (ls.list j) = 0 := by
      rcases hnil with hl | hl
      · rw [List.length_eq_zero_iff.mp hl, compareBytes]
        simp
      · rw [List.length_eq_zero_iff.mp hl, compareBytes]
        simp
    rwa [if_neg (not_not.mpr hzero)] at horders
  unfold BasicString.compare
  rw [hget, ok_bind, hget', ok_bind, hsize, hsize']
  by_cases hl : (ls.list i).length = 0
  · by_cases hl' : (ls.list j).length = 0
    · rw [if_pos ⟨hl, hl'⟩]
      exact ⟨h, hnil 0 (.inl hl) (by omega) (by omega)⟩
    · rw [if_neg fun hboth => hl' hboth.2, if_pos hl]
      exact ⟨h, hnil (-1) (.inl hl) (by omega) (by omega)⟩
  rw [if_neg fun hboth => hl hboth.1, if_neg hl]
  by_cases hl' : (ls.list j).length = 0
  · rw [if_pos hl']
    exact ⟨h, hnil 1 (.inr hl') (by omega) (by omega)⟩
  rw [if_neg hl']
  by_cases hle : (ls.list i).length ≤ (ls.list j).length
  · rw [if_pos hle]
    refine (h.cStrs hi hj le_rfl hle).bind fun r hr => ⟨hr.1, ?_⟩
    have hr := hr.2
    rw [List.take_length, compareBytes_take_right] at hr
    rw [hr]
    exact orders_of_length ha (by split_ifs <;> omega) (by split_ifs <;> omega)
  · rw [if_neg hle]
    refine (h.cStrs hi hj (Nat.le_of_not_le hle) le_rfl).bind fun r hr => ⟨hr.1, ?_⟩
    have hr := hr.2
    rw [List.take_length, compareBytes_take] at hr
    rw [hr]
    exact orders_of_length ha (by omega) (by omega)

theorem Refines.equal (h : Refines t ls) (hi : ls.Live i) (hj : ls.Live j) (differ : Bool) :
    Ensures (equal room junk t differ i j) (· = .outOfMemory) fun r => Refines r.1 ls ∧
      r.2 = if ls.list i = ls.list j then !differ else differ := by
  obtain ⟨s, hget, -, hs⟩ := h.get hi
  obtain ⟨str, hget', -, hstr⟩ := h.get hj
  unfold BasicString.equal
  rw [hget, ok_bind, hget', ok_bind, hs.size, hstr.size]
  by_cases hlen : (ls.list i).length = (ls.list j).length
  · rw [if_neg (not_not.mpr hlen)]
    refine (h.cStrs hi hj le_rfl hlen.le).bind fun r hr => ⟨hr.1, ?_⟩
    have hr := hr.2
    rw [List.take_length, hlen, List.take_length] at hr
    rw [hr]
    exact if_congr (compareBytes_eq_zero hlen) rfl rfl
  · rw [if_pos hlen]
    exact ⟨h, (if_neg fun heq => hlen (congrArg _ heq)).symm⟩

theorem Orders.ofCompare {c : Int} (h : Orders c l l') (r : Relation) :
    r.ofCompare c = r.onLists l l' := by
  rw [Bool.eq_iff_iff]
  cases r with
  | eq => exact beq_iff_eq.trans (h.eq.trans decide_eq_true_iff.symm)
  | ne => exact bne_iff_ne.trans ((not_congr h.eq).trans decide_eq_true_iff.symm)
  | lt => exact decide_eq_true_iff.trans h.lt
  | gt => exact decide_eq_true_iff.trans h.gt
  | le =>
    rw [Relation.ofCompare, Relation.onLists, decide_eq_true_iff, Bool.not_eq_true', ← Bool.not_eq_true,
      ← h.gt, not_lt]
  | ge =>
    rw [Relation.ofCompare, Relation.onLists, decide_eq_true_iff, Bool.not_eq_true', ← Bool.not_eq_true,
      ← h.lt, not_lt]

/-- A comparison of strings is that of their lists. -/
theorem Refines.relate (h : Refines t ls) (hi : ls.Live i) (hj : ls.Live j) {r : Relation}
    (ha : r = .eq ∨ r = .ne ∨ Alike (ls.list i) (ls.list j)) :
    Ensures (relate room junk t r i j) (· = .outOfMemory) fun r' => Refines r'.1 ls ∧
      r'.2 = r.onLists (ls.list i) (ls.list j) := by
  have hof (c : Int) (hc : Orders c (ls.list i) (ls.list j)) :
      r.ofCompare c = r.onLists (ls.list i) (ls.list j) := hc.ofCompare r
  cases r with
  | eq =>
    refine (h.equal hi hj false).mono (fun _ he => he) fun r' hr => ⟨hr.1, hr.2.trans ?_⟩
    by_cases heq : ls.list i = ls.list j <;> simp [Relation.onLists, heq]
  | ne =>
    refine (h.equal hi hj true).mono (fun _ he => he) fun r' hr => ⟨hr.1, hr.2.trans ?_⟩
    by_cases heq : ls.list i = ls.list j <;> simp [Relation.onLists, heq]
  | lt | le | gt | ge =>
    have halike : Alike (ls.list i) (ls.list j) := by simpa using ha
    exact (h.compare hi hj halike).bind fun r' hr => ⟨hr.1, hof _ hr.2⟩

/-! ### The calls -/

/-- A call that meets the condition does to the strings what it does to their lists. -/
theorem Refines.apply (h : Refines t ls) {c : StringCall} (ha : c.Admits ls) (hc : c.Careful t ls) :
    Ensures (apply room junk t c) (· = .outOfMemory)
      fun r => Refines r.1 (c.onLists ls).1 ∧ r.2 = (c.onLists ls).2 := by
  cases c with
  | construct => exact ⟨h.add holds_empty, rfl⟩
  | constructCString s => exact (ofCString_spec s hc).bind fun s' hs => ⟨h.add hs, rfl⟩
  | constructBytes s => exact (ofBytes_spec hc).bind fun s' hs => ⟨h.add hs, rfl⟩
  | constructFill x n => exact (fill_spec x hc).bind fun s' hs => ⟨h.add hs, rfl⟩
  | copy i =>
    obtain ⟨s, hget, -, hs⟩ := h.get ha
    unfold BasicString.apply
    simp only [hget, ok_bind]
    exact (hs.copy hc.1 hc.2).bind fun r hr => ⟨(h.put_same ha hr.2).add hr.1, rfl⟩
  | move i =>
    obtain ⟨s, hget, -, hs⟩ := h.get ha
    unfold BasicString.apply
    simp only [hget, ok_bind]
    exact ⟨(h.put i holds_empty).add hs, rfl⟩
  | assignCString i c =>
    obtain ⟨s, hget, hstring, hs⟩ := h.get ha.1
    have hgrants : s.Grants ((cString c).length + 1) := hstring ▸ hc
    unfold BasicString.apply
    simp only [hget, ok_bind]
    exact (hs.assignCString c hgrants ha.2).bind fun s' hs' => ⟨h.put i hs', rfl⟩
  | assign i j =>
    obtain ⟨s, hget, hstring, hs⟩ := h.get ha.1
    obtain ⟨str, hget', -, hstr⟩ := h.get ha.2
    have hgrants : s.Grants ((ls.list j).length + 1) := hstring ▸ hc
    unfold BasicString.apply
    simp only [hget, hget', ok_bind]
    by_cases hij : i = j
    · subst hij
      obtain rfl := Except.ok.inj (hget.symm.trans hget')
      rw [decide_eq_true rfl]
      exact (hs.assign_self hgrants).bind fun r hr => ⟨(h.put_same ha.1 hr.2).put i hr.1, rfl⟩
    · rw [decide_eq_false hij]
      exact (hs.assign hstr hgrants).bind fun r hr => ⟨(h.put_same ha.2 hr.2).put i hr.1, rfl⟩
  | moveAssign i j =>
    obtain ⟨s, hget, -, hs⟩ := h.get ha.1
    obtain ⟨str, hget', -, hstr⟩ := h.get ha.2
    unfold BasicString.apply
    simp only [hget, hget', ok_bind]
    exact ⟨(h.put i hstr).put j holds_empty, rfl⟩
  | append i j =>
    obtain ⟨s, hget, hstring, hs⟩ := h.get ha.1
    obtain ⟨str, hget', -, hstr⟩ := h.get ha.2
    have hgrants : s.Grants ((ls.list i).length + (ls.list j).length + 1) := hstring ▸ hc
    have hself : decide (i = j) = true → str = s := fun hij => by
      obtain rfl := of_decide_eq_true hij
      exact Except.ok.inj (hget'.symm.trans hget)
    unfold BasicString.apply
    simp only [hget, hget', ok_bind]
    exact (hs.append hstr hself hgrants).bind fun s' hs' => ⟨h.put i hs', rfl⟩
  | pushBack i x =>
    have hlive : ls.Live i := by
      cases x with
      | value => exact ha
      | own => exact ha.1
    obtain ⟨s, hget, hstring, hs⟩ := h.get hlive
    have hpush : Ensures (s.pushBack room junk x) (· = .outOfMemory)
        fun s' => s'.Holds (ls.list i ++ (x.onList (ls.list i)).toList) := by
      cases x with
      | value c => exact hs.pushBack (show s.Grants _ from hstring ▸ hc) fun k hk => by cases hk
      | own k =>
        have hkeeps : s.keeps ((ls.list i).length + 1) := hstring ▸ hc
        exact hs.pushBack (.inl hkeeps) fun k' hk => by
          cases hk
          exact ⟨ha.2, hkeeps⟩
    unfold BasicString.apply
    simp only [hget, ok_bind]
    exact hpush.bind fun s' hs' => ⟨h.put i hs', rfl⟩
  | resize i n x =>
    obtain ⟨s, hget, hstring, hs⟩ := h.get ha.1
    have hgrants : (ls.list i).length < n → s.Grants n := hstring ▸ hc
    unfold BasicString.apply
    simp only [hget, ok_bind]
    exact (hs.resize x hgrants).bind fun s' hs' => ⟨h.put i hs', rfl⟩
  | erase i first last =>
    obtain ⟨s, hget, hstring, hs⟩ := h.get ha.1
    obtain ⟨s', herase, hs'⟩ := hs.erase ha.2.1 ha.2.2 (hstring ▸ hc)
    unfold BasicString.apply
    simp only [hget, ok_bind, herase]
    exact ⟨h.put i hs', rfl⟩
  | substr i pos len =>
    obtain ⟨s, hget, hstring, hs⟩ := h.get ha.1
    have hsub : Ensures (s.substr room junk pos len) (· = .outOfMemory)
        fun r => r.1.Holds (((ls.list i).drop pos).take len) ∧ r.2 = s := by
      rcases Nat.lt_or_ge (ls.list i).length pos with hpos | hpos
      · rw [BasicString.substr, hs.size, if_pos hpos, List.drop_of_length_le hpos.le, List.take_nil]
        exact ⟨holds_empty, rfl⟩
      · obtain ⟨hdata, hlen, hnul, hn⟩ := hc.resolve_left (Nat.not_lt.mpr hpos)
        obtain ⟨rfl, -⟩ | ⟨b, hb⟩ := hs
        · rw [hstring] at hdata
          exact absurd rfl hdata
        · exact hb.substr hpos hlen hnul hn
    unfold BasicString.apply
    simp only [hget, ok_bind]
    refine hsub.bind fun r hr => ⟨(h.put_same ha.1 ?_).add hr.1, rfl⟩
    rw [hr.2]
    exact hs
  | compare r i j =>
    exact (h.relate ha.1 ha.2 hc).bind fun r' hr => ⟨hr.1, congrArg some hr.2⟩
  | destroy i =>
    obtain ⟨s, hget, -, -⟩ := h.get ha
    unfold BasicString.apply
    simp only [hget, ok_bind]
    exact ⟨h.destroy i, rfl⟩

/-- The strings that are there are those of the lists, and have their sizes and bytes. -/
def SameBytes (t : Objects BasicString) (ls : Objects (List UInt8)) : Prop :=
  ∀ i, (t.Live i ↔ ls.Live i) ∧ (ls.Live i → (t.string i).size = (ls.list i).length ∧
    (t.string i).data.load 0 (t.string i).size = .ok (ls.list i))

theorem Refines.sameBytes (h : Refines t ls) : SameBytes t ls := by
  refine fun i => ⟨?_, fun hi => ?_⟩
  · unfold Objects.Live
    have hrel := h.objects i
    generalize t.objects i = x at hrel ⊢
    generalize ls.objects i = y at hrel ⊢
    cases hrel with
    | none => exact Iff.rfl
    | some hs => exact Iff.rfl
  · obtain ⟨s, -, hstring, hs⟩ := h.get hi
    rw [hstring, hs.size]
    exact ⟨rfl, hs.load⟩

/-- The strings of a program with the lists that they are to hold; a command says what memory is left and
what it holds. -/
def machine : Lib.Machine (Objects BasicString × Objects (List UInt8))
    (Nat × (Nat → UInt8) × StringCall) Fault where
  start s := s = (.empty, .empty)
  admits s c := c.2.2.Admits s.2
  apply s c := do
    let r ← apply c.1 c.2.1 s.1 c.2.2
    return (r.1, (c.2.2.onLists s.2).1)

/-- In every state of a run whose calls meet the condition, the strings are the lists; the next call that
meets it does to them what it does to the lists and has the same result, unless no memory is left. -/
theorem run_string {s : Objects BasicString × Objects (List UInt8)}
    (hr : machine.Run (fun s c => c.2.2.Careful s.1 s.2) s) :
    SameBytes s.1 s.2 ∧ ∀ room junk c, c.Admits s.2 → c.Careful s.1 s.2 →
      Ensures (apply room junk s.1 c) (· = .outOfMemory)
        fun r => SameBytes r.1 (c.onLists s.2).1 ∧ r.2 = (c.onLists s.2).2 := by
  have hrefines : Refines s.1 s.2 := by
    refine hr.invariant (I := fun s => Refines s.1 s.2) ?_ fun s s' c hs ha hc happly => ?_
    · rintro s rfl
      exact ⟨rfl, fun i => .none⟩
    · obtain ⟨r, hr, hs'⟩ := bind_eq_ok.mp happly
      obtain rfl := Except.ok.inj hs'
      exact ((hs.apply ha hc).of_ok hr).1
  refine ⟨hrefines.sameBytes, fun room junk c ha hc => ?_⟩
  exact (hrefines.apply ha hc).mono (fun _ h => h) fun r h => ⟨h.1.sameBytes, h.2⟩

/-- A string is copied, appended to itself, and a part of it is taken and erased. -/
theorem run_string_parts : ∃ s, machine.Run (fun s c => c.2.2.Careful s.1 s.2) s ∧
    decide (s.2.list 0 = [97, 99] ∧ s.2.list 1 = [97, 98, 99, 97, 98, 99] ∧ s.2.list 2 = [99, 97]) = true ∧
      SameBytes s.1 s.2 := by
  have hcheck (s : Objects BasicString × Objects (List UInt8)) (c : Nat × (Nat → UInt8) × StringCall)
      (hc : decide (c.2.2.Admits s.2 ∧ c.2.2.Careful s.1 s.2) = true) :
      machine.admits s c ∧ c.2.2.Careful s.1 s.2 :=
    of_decide_eq_true (p := c.2.2.Admits s.2 ∧ c.2.2.Careful s.1 s.2) hc
  obtain ⟨s, hs, hP⟩ := Machine.exists_run (M := machine) hcheck rfl
    [(4096, fun _ => 255, .constructBytes [97, 98, 99]), (4096, fun _ => 255, .copy 0),
      (4096, fun _ => 255, .append 1 1), (4096, fun _ => 255, .substr 1 2 2),
      (4096, fun _ => 255, .erase 0 1 2)]
    (P := fun s => decide (s.2.list 0 = [97, 99] ∧ s.2.list 1 = [97, 98, 99, 97, 98, 99] ∧
      s.2.list 2 = [99, 97])) (by decide +kernel)
  exact ⟨s, hs, hP, (run_string hs).1⟩

/-- The copy of a string with a NUL ends in front of that. -/
theorem copy_truncates : ¬∀ (s : Objects BasicString × Objects (List UInt8)) (c : StringCall),
    machine.Run (fun _ _ => True) s → c.Admits s.2 →
      ∃ r, apply 4096 (fun _ => 0) s.1 c = .ok r ∧ SameBytes r.1 (c.onLists s.2).1 := by
  intro hall
  obtain ⟨s, hs, hP⟩ := Machine.exists_run (M := machine) (C := fun _ _ => True)
    (fun s c (hc : decide (c.2.2.Admits s.2) = true) => ⟨of_decide_eq_true (p := c.2.2.Admits s.2) hc, trivial⟩)
    rfl [(4096, fun _ => 0, .constructBytes [65, 0, 66])]
    (P := fun s => decide (StringCall.Admits s.2 (.copy 0)) &&
      (apply 4096 (fun _ => 0) s.1 (.copy 0)).toOption.elim false (fun r =>
        decide ((r.1.string 1).size = 1)) &&
      decide ((StringCall.onLists s.2 (.copy 0)).1.Live 1 ∧
        ((StringCall.onLists s.2 (.copy 0)).1.list 1).length = 3)) (by decide +kernel)
  simp only [Bool.and_eq_true, decide_eq_true_iff] at hP
  obtain ⟨⟨hadmits, hsize⟩, hlive, hlength⟩ := hP
  obtain ⟨r, hr, hsame⟩ := hall s (.copy 0) hs hadmits
  rw [hr] at hsize
  have hone : (r.1.string 1).size = 1 := of_decide_eq_true hsize
  have hthree := ((hsame 1).2 hlive).1
  rw [hone, hlength] at hthree
  cases hthree

end BasicString

end SupOS.Libcpp
