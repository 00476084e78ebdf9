import SupOS.Memory.UserMemory

/-! What the functions of `UserMemory` that free pages and tables free: every frame below a table
once, and nothing else. -/

namespace SupOS

open Lib

/-- The frame an entry refers to, as `UserMemory` reads it. -/
def Entry.link (e : Entry) : Option Nat := if e.present then some e.getAddr else none

namespace Entry

theorem link_of_present {e : Entry} (h : e.present = true) : e.link = some e.getAddr := if_pos h

theorem link_of_not_present {e : Entry} (h : e.present = false) : e.link = none := by
  rw [link, h, if_neg Bool.false_ne_true]

theorem link_withAddr {e : Entry} {a : Nat} (h : e.present = true) (ha : IsFrame a) :
    (e.withAddr a).link = some a :=
  (link_of_present (e := e.withAddr a) h).trans (congrArg some (getAddr_withAddr e ha))

theorem link_eq_some {e : Entry} {f : Nat} : e.link = some f ↔ e.present = true ∧ e.getAddr = f := by
  cases hp : e.present <;> simp [link, hp]

end Entry

namespace Machine

open Entry

variable {s s1 s' : Machine} {D D' : Nat → Nat → Prop} {n d a f : Nat}

/-- The windows from `n` on are closed. -/
def Closed (n : Nat) (s : Machine) : Prop :=
  ∀ k, n ≤ k → k ≤ TMPPTOFF → (s.mem s.pagePT k).present = false

/-- Only the entries in `D` and the windows from `n` on, closed again, have changed. -/
structure Touched (n : Nat) (s s' : Machine) (D : Nat → Nat → Prop) : Prop where
  pml4 : s'.pml4 = s.pml4
  pagePT : s'.pagePT = s.pagePT
  mem : ∀ f i, ¬D f i → ¬(f = s.pagePT ∧ n ≤ i ∧ i ≤ TMPPTOFF) → s'.mem f i = s.mem f i
  closed : Closed n s'

theorem Touched.refl (h : Closed n s) : Touched n s s fun _ _ => False :=
  ⟨rfl, rfl, fun _ _ _ _ => rfl, h⟩

theorem Touched.mono (h : Touched n s s' D) (hD : ∀ f i, D f i → D' f i) : Touched n s s' D' :=
  ⟨h.pml4, h.pagePT, fun f i hd hw => h.mem f i (fun hd' => hd (hD f i hd')) hw, h.closed⟩

theorem Touched.trans (h : Touched n s s1 D) (h' : Touched n s1 s' D') :
    Touched n s s' fun f i => D f i ∨ D' f i where
  pml4 := h'.pml4.trans h.pml4
  pagePT := h'.pagePT.trans h.pagePT
  mem f i hd hw := by
    rw [h'.mem f i (fun hd' => hd (.inr hd')) (by rwa [h.pagePT])]
    exact h.mem f i (fun hd' => hd (.inl hd')) hw
  closed := h'.closed

theorem Touched.window (h : Touched (n + 1) s s' D) (hD : ¬D s.pagePT n) :
    s'.window n = s.window n := by
  have hmem : s'.mem s.pagePT n = s.mem s.pagePT n := h.mem _ _ hD fun hw => by omega
  rw [Machine.window, Machine.window, h.pagePT, hmem]

/-- The paths of at most `d` entries of which the first is at least `a`. -/
structure From (a d : Nat) (p : List Nat) : Prop where
  length : p.length ≤ d
  lt : ∀ i ∈ p, i < 512
  first : ∀ i q, p = i :: q → a ≤ i

theorem From.closed (a d : Nat) : Store.Closed (From a d) := by
  rintro p q ⟨hlen, hlt, hfirst⟩
  rw [List.length_append] at hlen
  refine ⟨by omega, fun i hi => hlt i (List.mem_append_left _ hi), fun i r hr => ?_⟩
  subst hr
  exact hfirst i (r ++ q) rfl

theorem From.nil (a d : Nat) : From a d [] :=
  ⟨Nat.zero_le _, fun _ hi => absurd hi List.not_mem_nil, fun _ _ h => nomatch h⟩

theorem From.cons {i : Nat} {p : List Nat} (hp : From 0 d p) (hi : a ≤ i) (hlt : i < 512) :
    From a (d + 1) (i :: p) := by
  refine ⟨Nat.succ_le_succ hp.length, fun j hj => ?_, fun j q hj => ?_⟩
  · rcases List.mem_cons.mp hj with rfl | hj
    · exact hlt
    · exact hp.lt j hj
  · obtain ⟨rfl, rfl⟩ := List.cons.inj hj
    exact hi

theorem From.tail {i : Nat} {p : List Nat} (h : From a (d + 1) (i :: p)) :
    From 0 d p ∧ a ≤ i ∧ i < 512 :=
  ⟨⟨Nat.le_of_succ_le_succ h.length, fun j hj => h.lt j (List.mem_cons_of_mem _ hj),
    fun _ _ _ => Nat.zero_le _⟩, h.first i p rfl, h.lt i List.mem_cons_self⟩

/-- The frame at the end of a path. -/
def linkAt (s : Machine) (f : Nat) (p : List Nat) : Option Nat := Store.descend link s.mem f p

/-- The frames below a table are in use, each at the end of one path. -/
structure Held (s : Machine) (f a d : Nat) : Prop where
  tree : Store.Tree link s.mem f (From a d)
  live : ∀ p x, From a d p → p ≠ [] → s.linkAt f p = some x → x ∈ s.used ∧ x ≠ 0 ∧ x ≠ s.pagePT

/-- The frames below a table are no longer in use. -/
def Released (s s' : Machine) (f a d : Nat) : Prop :=
  ∀ x, x ∈ s'.used ↔ x ∈ s.used ∧ ¬∃ p, From a d p ∧ p ≠ [] ∧ s.linkAt f p = some x

/-- `inner` frees what is below a table, through the windows from `n` on. -/
def Releases (inner : Machine → Nat → Except Fault Machine) (n d : Nat) : Prop :=
  ∀ s f, Closed n s → IsFrame f → f ≠ s.pagePT → Held s f 0 d →
    ∃ s', inner s f = .ok s' ∧ Touched n s s' (fun _ _ => False) ∧ Released s s' f 0 d

/-- A round of the loops: the frames below an entry are freed, then the frame it refers to, and the
entry is cleared when `clr` is true. -/
structure Round (inner : Machine → Nat → Except Fault Machine) (n : Nat) (clr : Bool)
    (body : Machine → Nat → Except Fault Machine) : Prop where
  absent : ∀ s i e, s.readAt n i = .ok e → e.present = false → body s i = .ok s
  present : ∀ s i e, s.readAt n i = .ok e → e.present = true → e.getAddr ≠ 0 → body s i = do
    let s ← inner s e.getAddr
    let s ← s.free e.getAddr
    if clr then s.writeAt n i { e with present := false } else return s

theorem linkAt_cons {i g : Nat} (p : List Nat) (h : (s.mem f i).link = some g) :
    s.linkAt f (i :: p) = s.linkAt g p := Store.descend_cons p h

theorem linkAt_one {i : Nat} : s.linkAt f [i] = (s.mem f i).link :=
  Store.descend_snoc (p := []) i rfl

/-- Part of the state below an entry is as before when only other tables have changed. -/
theorem Held.below {t : Machine} {i g : Nat} (h : Held s f a (d + 1)) (hi : a ≤ i) (hlt : i < 512)
    (hg : (s.mem f i).link = some g) (hpt : t.pagePT = s.pagePT)
    (hmem : ∀ y j, y ≠ f → y ≠ s.pagePT → t.mem y j = s.mem y j)
    (hused : ∀ p x, From 0 d p → s.linkAt f (i :: p) = some x → x ∈ t.used) :
    (∀ p, From 0 d p → t.linkAt g p = s.linkAt f (i :: p)) ∧ Held t g 0 d := by
  have hsame : ∀ p, From 0 d p → t.linkAt g p = s.linkAt f (i :: p) := by
    intro p hp
    rw [linkAt_cons p hg]
    refine Store.descend_congr fun q j y hq hy => congrArg link (hmem y j ?_ ?_)
    all_goals
      have hqd : From 0 d q := (From.closed 0 d).of_initial (List.IsPrefix.trans ⟨[j], rfl⟩ hq) hp
      have hiq : s.linkAt f (i :: q) = some y := (linkAt_cons q hg).trans hy
    · rintro rfl
      exact absurd (h.tree _ _ _ (hqd.cons hi hlt) (From.nil a _) hiq rfl) (List.cons_ne_nil _ _)
    · exact (h.live _ y (hqd.cons hi hlt) (List.cons_ne_nil _ _) hiq).2.2
  refine ⟨hsame, fun p q x hp hq hpx hqx => ?_, fun p x hp hne hx => ?_⟩
  · have heq := h.tree _ _ x (hp.cons hi hlt) (hq.cons hi hlt) ((hsame p hp).symm.trans hpx)
      ((hsame q hq).symm.trans hqx)
    exact (List.cons.inj heq).2
  · have hx := (hsame p hp).symm.trans hx
    obtain ⟨-, hz, hpage⟩ := h.live _ x (hp.cons hi hlt) (List.cons_ne_nil _ _) hx
    exact ⟨hused p x hp hx, hz, hpt ▸ hpage⟩

/-- The state after the rounds for the entries from `a` to `i - 1`. -/
structure Partly (s t : Machine) (f a d n : Nat) (clr : Bool) (i : Nat) : Prop where
  touched : Touched (n + 1) s t fun g j => clr = true ∧ g = f ∧ a ≤ j ∧ j < i
  used : ∀ x, x ∈ t.used ↔ x ∈ s.used ∧
    ¬∃ j p, a ≤ j ∧ j < i ∧ From 0 d p ∧ s.linkAt f (j :: p) = some x
  cleared : clr = true → ∀ j, a ≤ j → j < i → (t.mem f j).present = false

theorem Partly.next {inner body : Machine → Nat → Except Fault Machine} {clr : Bool} {t : Machine}
    {i : Nat} (hr : Round inner n clr body) (hin : Releases inner (n + 1) d)
    (hw : s.window n = .ok f) (hf : f ≠ s.pagePT) (hh : Held s f a (d + 1)) (hi : a ≤ i)
    (hlt : i < 512) (h : Partly s t f a d n clr i) :
    ∃ t', body t i = .ok t' ∧ Partly s t' f a d n clr (i + 1) := by
  have hwt : t.window n = .ok f := (h.touched.window fun hd => hf hd.2.1.symm).trans hw
  have hentry : t.mem f i = s.mem f i :=
    h.touched.mem f i (fun hd => absurd hd.2.2.2 (Nat.lt_irrefl i)) fun hw => hf hw.1
  have hread : t.readAt n i = .ok (s.mem f i) := by rw [readAt_eq hwt, hentry]
  cases hpres : (s.mem f i).present with
  | false =>
    refine ⟨t, hr.absent t i _ hread hpres, h.touched.mono fun g j hd =>
      ⟨hd.1, hd.2.1, hd.2.2.1, by omega⟩, fun x => ?_, fun hclr j hj hji => ?_⟩
    · rw [h.used x]
      refine and_congr_right fun _ => not_congr ⟨?_, ?_⟩
      · rintro ⟨j, p, hj, hji, hp, hx⟩
        exact ⟨j, p, hj, by omega, hp, hx⟩
      · rintro ⟨j, p, hj, hji, hp, hx⟩
        refine ⟨j, p, hj, ?_, hp, hx⟩
        by_contra hnot
        obtain rfl : j = i := by omega
        rw [linkAt, Store.descend_cons_none p (link_of_not_present hpres)] at hx
        exact nomatch hx
    · by_cases hji' : j = i
      · rw [hji', hentry, hpres]
      · exact h.cleared hclr j hj (by omega)
  | true =>
    have hlink : (s.mem f i).link = some (s.mem f i).getAddr := link_of_present hpres
    obtain ⟨-, hz, hpage⟩ := hh.live [i] _ ((From.nil 0 d).cons hi hlt) (List.cons_ne_nil _ _)
      (linkAt_one.trans hlink)
    -- What is below entry `i` is not below an earlier entry.
    have hstill : ∀ p x, From 0 d p → s.linkAt f (i :: p) = some x → x ∈ t.used := by
      intro p x hp hx
      refine (h.used x).mpr ⟨(hh.live _ x (hp.cons hi hlt) (List.cons_ne_nil _ _) hx).1, ?_⟩
      rintro ⟨j, q, hj, hji, hq, hqx⟩
      have heq := hh.tree _ _ x (hq.cons hj (by omega)) (hp.cons hi hlt) hqx hx
      exact absurd (List.cons.inj heq).1 (by omega)
    obtain ⟨hsame, hbelow⟩ := hh.below (t := t) hi hlt hlink h.touched.pagePT
      (fun y j hy hyp => h.touched.mem y j (fun hd => hy hd.2.1) fun hw => hyp hw.1) hstill
    obtain ⟨t1, hin1, htouch, hrel⟩ := hin t _ h.touched.closed (isFrame_getAddr _)
      (h.touched.pagePT ▸ hpage) hbelow
    have hmem : (s.mem f i).getAddr ∈ t1.used := by
      refine (hrel _).mpr ⟨hstill [] _ (From.nil 0 d) (linkAt_one.trans hlink), ?_⟩
      rintro ⟨p, hp, hne, hx⟩
      have heq := hh.tree _ _ _ (hp.cons hi hlt) ((From.nil 0 d).cons hi hlt)
        ((hsame p hp).symm.trans hx) (linkAt_one.trans hlink)
      exact hne (List.cons.inj heq).2
    have hbody := hr.present t i _ hread hpres hz
    rw [hin1, ok_bind, Machine.free, if_pos hmem, ok_bind] at hbody
    have hused : ∀ x, x ∈ t1.used.erase (s.mem f i).getAddr ↔ x ∈ s.used ∧
        ¬∃ j p, a ≤ j ∧ j < i + 1 ∧ From 0 d p ∧ s.linkAt f (j :: p) = some x := by
      intro x
      rw [Finset.mem_erase, hrel x, h.used x]
      constructor
      · rintro ⟨hne, ⟨hx, hold⟩, hnew⟩
        refine ⟨hx, ?_⟩
        rintro ⟨j, p, hj, hji, hp, hpx⟩
        by_cases hji' : j = i
        · subst hji'
          cases p with
          | nil => exact hne (Option.some.inj (hpx.symm.trans (linkAt_one.trans hlink)))
          | cons k p => exact hnew ⟨k :: p, hp, List.cons_ne_nil _ _, (hsame _ hp).trans hpx⟩
        · exact hold ⟨j, p, hj, by omega, hp, hpx⟩
      · rintro ⟨hx, hnone⟩
        refine ⟨fun heq => ?_, ⟨hx, ?_⟩, ?_⟩
        · exact hnone ⟨i, [], hi, by omega, From.nil 0 d, heq ▸ linkAt_one.trans hlink⟩
        · rintro ⟨j, p, hj, hji, hp, hpx⟩
          exact hnone ⟨j, p, hj, by omega, hp, hpx⟩
        · rintro ⟨p, hp, -, hpx⟩
          exact hnone ⟨i, p, hi, by omega, hp, (hsame p hp).symm.trans hpx⟩
    have htouch1 := h.touched.trans htouch
    cases clr with
    | false =>
      rw [if_neg Bool.false_ne_true] at hbody
      exact ⟨_, hbody, ⟨htouch1.pml4, htouch1.pagePT, fun g j _ hw => htouch1.mem g j
        (by rintro (hd | hd); exacts [Bool.false_ne_true hd.1, hd]) hw, htouch1.closed⟩, hused,
        fun hclr => absurd hclr Bool.false_ne_true⟩
    | true =>
      have hwt1 : ({ t1 with used := t1.used.erase (s.mem f i).getAddr } : Machine).window n =
          .ok f := (htouch.window fun hd => hd).trans hwt
      rw [if_pos rfl, writeAt_eq hwt1] at hbody
      refine ⟨_, hbody, ⟨htouch1.pml4, htouch1.pagePT, fun g j hd hw => ?_, fun k hk hkt => ?_⟩,
        hused, fun _ j hj hji => ?_⟩
      · have hgj : ¬(g = f ∧ j = i) := fun hg => hd ⟨rfl, hg.1, hg.2 ▸ hi, by omega⟩
        rw [write_mem, if_neg hgj]
        refine htouch1.mem g j ?_ hw
        rintro (hd' | hd')
        · exact hd ⟨rfl, hd'.2.1, hd'.2.2.1, by omega⟩
        · exact hd'
      · have hpf : ¬(t1.pagePT = f ∧ k = i) := fun hg => hf (hg.1.symm.trans htouch1.pagePT)
        rw [write_pagePT, write_mem]
        exact (congrArg Entry.present (if_neg hpf)).trans (htouch1.closed k hk hkt)
      · rw [write_mem]
        by_cases hji' : j = i
        · rw [if_pos ⟨rfl, hji'⟩]
        · rw [if_neg fun hg => hji' hg.2]
          exact (congrArg Entry.present (htouch.mem f j (fun hd => hd)
            fun hw => hf (hw.1.trans h.touched.pagePT))).trans (h.cleared rfl j hj (by omega))

theorem Round.loop {inner body : Machine → Nat → Except Fault Machine} {clr : Bool}
    (hr : Round inner n clr body) (hin : Releases inner (n + 1) d) (hw : s.window n = .ok f)
    (hc : Closed (n + 1) s) (hf : f ≠ s.pagePT) (hh : Held s f a (d + 1)) (ha : a ≤ 512) :
    ∃ s', (List.range' a (512 - a)).foldlM body s = .ok s' ∧
      (Touched (n + 1) s s' fun g j => clr = true ∧ g = f ∧ a ≤ j) ∧ Released s s' f a (d + 1) ∧
      (clr = true → ∀ j, a ≤ j → j < 512 → (s'.mem f j).present = false) := by
  have hstart : Partly s s f a d n clr a := by
    refine ⟨(Touched.refl hc).mono fun _ _ hd => hd.elim, fun x => ?_, fun _ j hj hja => ?_⟩
    · refine (and_iff_left ?_).symm
      rintro ⟨j, p, hj, hja, -⟩
      omega
    · omega
  have hloop := Ensures.foldlM_range' (E := fun _ => False) (f := body) (n := 512 - a)
    (P := fun i t => Partly s t f a d n clr i) hstart fun i hi hlt t ht => by
      obtain ⟨t', heq, ht'⟩ := ht.next hr hin hw hf hh hi (by omega)
      rw [heq]
      exact ht'
  rw [show a + (512 - a) = 512 by omega] at hloop
  obtain ⟨s', heq, h⟩ := hloop.returns fun _ h => h
  refine ⟨s', heq, h.touched.mono fun g j hd => ⟨hd.1, hd.2.1, hd.2.2.1⟩, fun x => ?_, h.cleared⟩
  rw [h.used x]
  refine and_congr_right fun _ => not_congr ⟨?_, ?_⟩
  · rintro ⟨j, p, hj, hlt, hp, hx⟩
    exact ⟨j :: p, hp.cons hj hlt, List.cons_ne_nil _ _, hx⟩
  · rintro ⟨p, hp, hne, hx⟩
    cases p with
    | nil => exact absurd rfl hne
    | cons j p =>
      obtain ⟨hp', hj, hlt⟩ := hp.tail
      exact ⟨j, p, hj, hlt, hp', hx⟩

theorem Held.ne_pagePT (h : Held s f a d) (hf : f ≠ s.pagePT) {q : List Nat} {y : Nat}
    (hq : From a d q) (hy : s.linkAt f q = some y) : y ≠ s.pagePT := by
  by_cases hne : q = []
  · subst hne
    rwa [← Option.some.inj hy]
  · exact (h.live q y hq hne hy).2.2

/-- What is below a table is as before when its tables and frames are. -/
theorem Held.congr {t : Machine} (h : Held s f a d) (hpt : t.pagePT = s.pagePT)
    (hmem : ∀ q j y, From a d (q ++ [j]) → s.linkAt f q = some y → t.mem y j = s.mem y j)
    (hused : ∀ p x, From a d p → p ≠ [] → s.linkAt f p = some x → x ∈ t.used) :
    (∀ p, From a d p → t.linkAt f p = s.linkAt f p) ∧ Held t f a d := by
  have hsame : ∀ p, From a d p → t.linkAt f p = s.linkAt f p := by
    intro p hp
    refine Store.descend_congr fun q j y hq hy => congrArg link (hmem q j y ?_ hy)
    exact (From.closed a d).of_initial hq hp
  refine ⟨hsame, fun p q x hp hq hpx hqx => ?_, fun p x hp hne hx => ?_⟩
  · exact h.tree p q x hp hq ((hsame p hp).symm.trans hpx) ((hsame q hq).symm.trans hqx)
  · have hx := (hsame p hp).symm.trans hx
    obtain ⟨-, hz, hpage⟩ := h.live p x hp hne hx
    exact ⟨hused p x hp hne hx, hz, hpt ▸ hpage⟩

/-- The loop between the opening and the closing of the window of its table. -/
theorem Round.table {inner body : Machine → Nat → Except Fault Machine} {clr : Bool}
    (hr : Round inner n clr body) (hin : Releases inner (n + 1) d) (hn : n ≤ TMPPTOFF)
    (hc : Closed n s) (hframe : IsFrame f) (hf : f ≠ s.pagePT) (hh : Held s f a (d + 1))
    (ha : a ≤ 512) :
    ∃ s1 s2, s.actTmp n f = .ok s1 ∧ s1.window n = .ok f ∧
      (List.range' a (512 - a)).foldlM body s1 = .ok s2 ∧
      (Touched n s (s2.freeTmp n) fun g j => clr = true ∧ g = f ∧ a ≤ j) ∧
      Released s (s2.freeTmp n) f a (d + 1) ∧
      (clr = true → ∀ j, a ≤ j → j < 512 → ((s2.freeTmp n).mem f j).present = false) := by
  have hact := actTmp_eq (hc n le_rfl hn) hframe
  generalize hs1 : s.write s.pagePT n ((s.mem s.pagePT n).active f) = s1 at hact
  have hp1 : s1.pagePT = s.pagePT := by rw [← hs1]; rfl
  have hm1 : ∀ g j, s1.mem g j = if g = s.pagePT ∧ j = n then (s.mem s.pagePT n).active f
      else s.mem g j := by
    intro g j
    rw [← hs1]
    exact write_mem ..
  have hw1 : s1.window n = .ok f :=
    window_active (s := s) hframe (by rw [hp1, hm1, if_pos ⟨rfl, rfl⟩])
  have hc1 : Closed (n + 1) s1 := by
    intro k hk hkt
    rw [hp1, hm1, if_neg (fun h => by omega)]
    exact hc k (by omega) hkt
  obtain ⟨hsame, hh1⟩ := hh.congr (t := s1) hp1 (fun q j y hq hy => by
      have hyp := hh.ne_pagePT hf ((From.closed _ _) q _ hq) hy
      rw [hm1, if_neg fun h => hyp h.1])
    fun p x hp hne hx => by
      rw [← hs1]
      exact (hh.live p x hp hne hx).1
  obtain ⟨s2, heq, htouch, hrel, hclr⟩ := hr.loop hin hw1 hc1 (hp1 ▸ hf) hh1 ha
  refine ⟨s1, s2, hact, hw1, heq, ⟨?_, htouch.pagePT.trans hp1, fun g j hd hw => ?_,
    fun k hk hkt => ?_⟩, fun x => ?_, fun hc j hj hlt => ?_⟩
  · refine htouch.pml4.trans ?_
    rw [← hs1]
    rfl
  · have hgn : ¬(g = s.pagePT ∧ j = n) := fun h => hw ⟨h.1, h.2 ▸ le_rfl, h.2 ▸ hn⟩
    rw [freeTmp_mem, htouch.pagePT, hp1, if_neg hgn, htouch.mem g j hd, hm1, if_neg hgn]
    rintro ⟨hg, hj, hjt⟩
    exact hw ⟨hg.trans hp1, by omega, hjt⟩
  · rw [freeTmp_pagePT, freeTmp_mem]
    by_cases hkn : k = n
    · rw [if_pos ⟨rfl, hkn⟩]
    · rw [if_neg fun h => hkn h.2]
      exact htouch.closed k (by omega) hkt
  · rw [freeTmp_used, hrel x, ← hs1]
    refine and_congr_right fun _ => not_congr (exists_congr fun p => and_congr_right fun hp => ?_)
    rw [hs1, hsame p hp]
  · have hfp : ¬(f = s2.pagePT ∧ j = n) := fun h => hf (h.1.trans (htouch.pagePT.trans hp1))
    rw [freeTmp_mem, if_neg hfp]
    exact hclr hc j hj hlt

/-- A page has nothing below it. -/
theorem releases_page : Releases (fun s _ => .ok s) (TMPPTOFF + 1) 0 := by
  intro s f hc _ _ _
  refine ⟨s, rfl, Touched.refl hc, fun x => (and_iff_left ?_).symm⟩
  rintro ⟨p, hp, hne, -⟩
  exact hne (List.length_eq_zero_iff.mp (Nat.le_zero.mp hp.length))

theorem freePages_releases : Releases freePages TMPPTOFF 1 := by
  intro s f hc hframe hf hh
  have hround : Round (fun s _ => .ok s) TMPPTOFF false (fun s i => do
      let e ← s.readAt TMPPTOFF i
      if e.present then
        assert (e.getAddr ≠ 0)
        s.free e.getAddr
      else return s) := by
    refine ⟨fun s i e he hp => ?_, fun s i e he hp hz => ?_⟩
    · rw [he, ok_bind, hp, if_neg Bool.false_ne_true]
      rfl
    · rw [he, ok_bind, if_pos hp, decide_eq_true hz, assert_true, ok_bind, ok_bind]
      cases s.free e.getAddr <;> rfl
  obtain ⟨s1, s2, hact, -, hloop, htouch, hrel, -⟩ :=
    hround.table releases_page le_rfl hc hframe hf hh (Nat.zero_le _)
  refine ⟨s2.freeTmp TMPPTOFF, ?_, htouch.mono fun g j hd => Bool.false_ne_true hd.1, hrel⟩
  unfold freePages
  rw [hact, ok_bind, List.range_eq_range', hloop]
  rfl

/-- Below a directory from its entry `start` on. -/
theorem freePTs_spec {start : Nat} (hstart : start ≤ 1) (hc : Closed TMPPDOFF s)
    (hframe : IsFrame f) (hf : f ≠ s.pagePT) (hh : Held s f start 2) :
    ∃ s', s.freePTs f start = .ok s' ∧
      (Touched TMPPDOFF s s' fun g j => start = 1 ∧ g = f ∧ 1 ≤ j) ∧ Released s s' f start 2 ∧
      (start = 1 → ∀ j, 1 ≤ j → j < 512 → (s'.mem f j).present = false) := by
  have hround : Round freePages TMPPDOFF (decide (start = 1)) (fun s i => do
      let e ← s.readAt TMPPDOFF i
      if e.present then
        if e.getAddr = 0 then
          throw (.bsod "Entry %d in PD %p was present but set to 0")
        let s ← s.freePages e.getAddr
        let s ← s.free e.getAddr
        if start = 1 then s.writeAt TMPPDOFF i { e with present := false } else return s
      else return s) := by
    refine ⟨fun s i e he hp => ?_, fun s i e he hp hz => ?_⟩
    · rw [he, ok_bind, hp, if_neg Bool.false_ne_true]
      rfl
    · rw [he, ok_bind, if_pos hp, if_neg hz]
      simp only [decide_eq_true_eq]
  obtain ⟨s1, s2, hact, -, hloop, htouch, hrel, hclr⟩ :=
    hround.table freePages_releases (by decide) hc hframe hf hh (by omega)
  refine ⟨s2.freeTmp TMPPDOFF, ?_, htouch.mono fun g j hd => ?_, hrel, fun h => ?_⟩
  · unfold freePTs
    rw [hact, ok_bind, hloop]
    rfl
  · exact ⟨of_decide_eq_true hd.1, hd.2.1, (of_decide_eq_true hd.1) ▸ hd.2.2⟩
  · subst h
    exact hclr rfl

theorem freePTs_releases : Releases (fun s f => s.freePTs f 0) TMPPDOFF 2 := by
  intro s f hc hframe hf hh
  obtain ⟨s', heq, htouch, hrel, -⟩ := freePTs_spec (Nat.zero_le 1) hc hframe hf hh
  exact ⟨s', heq, htouch.mono fun g j hd => absurd hd.1 (by decide), hrel⟩

/-! ### User memories -/

/-- The paths from a PDP to the frames a user memory owns: all but those through the first entry of
the first directory, which refers to the page table that all memories share. -/
structure Own (p : List Nat) : Prop where
  path : From 0 3 p
  apart : ¬[0, 0] <+: p

theorem Own.closed : Store.Closed Own := fun p q h =>
  ⟨From.closed 0 3 p q h.path, fun hp => h.apart (hp.trans ⟨q, rfl⟩)⟩

theorem Own.nil : Own [] := ⟨From.nil 0 3, by decide⟩

theorem Own.zero : Own [0] := ⟨(From.nil 0 2).cons le_rfl (by decide), by decide⟩

theorem Own.of_from {p : List Nat} (h : From 1 3 p) : Own p := by
  refine ⟨⟨h.length, h.lt, fun _ _ _ => Nat.zero_le _⟩, ?_⟩
  rintro ⟨q, rfl⟩
  exact absurd (h.first 0 (0 :: q) rfl) (by decide)

theorem Own.cons_zero {p : List Nat} (h : From 1 2 p) : Own (0 :: p) := by
  have hp : From 0 2 p := ⟨h.length, h.lt, fun _ _ _ => Nat.zero_le _⟩
  refine ⟨hp.cons le_rfl (by decide), fun hpre => ?_⟩
  obtain ⟨q, rfl⟩ := (List.cons_prefix_cons.mp hpre).2
  exact absurd (h.first 0 q rfl) (by decide)

/-- The two parts of what is below a PDP. -/
theorem Own.cases {p : List Nat} (h : Own p) :
    From 1 3 p ∨ ∃ q, p = 0 :: q ∧ From 1 2 q := by
  cases p with
  | nil => exact .inl (From.nil 1 3)
  | cons i q =>
    obtain ⟨hq, -, hlt⟩ := h.path.tail
    cases i with
    | succ i => exact .inl (hq.cons (by omega) hlt)
    | zero =>
      refine .inr ⟨q, rfl, hq.length, hq.lt, fun j r hr => ?_⟩
      subst hr
      cases j with
      | succ j => omega
      | zero => exact absurd ⟨r, rfl⟩ h.apart

/-- A user memory whose PDP is `P`, and whose first directory starts with the shared page table. -/
structure Space (s : Machine) (P shared : Nat) : Prop where
  frame : IsFrame P
  used : P ∈ s.used
  ne_zero : P ≠ 0
  ne_pagePT : P ≠ s.pagePT
  tree : Store.Tree link s.mem P Own
  live : ∀ p x, Own p → p ≠ [] → s.linkAt P p = some x → x ∈ s.used ∧ x ≠ 0 ∧ x ≠ s.pagePT
  first : ∃ PD, s.linkAt P [0] = some PD ∧ (s.mem PD 0).link = some shared

/-- The frames of a user memory. -/
def Owned (s : Machine) (P x : Nat) : Prop := ∃ p, Own p ∧ s.linkAt P p = some x

namespace Space

variable {P shared : Nat}

theorem held (h : Space s P shared) : Held s P 1 3 where
  tree p q x hp hq := h.tree p q x (.of_from hp) (.of_from hq)
  live p x hp := h.live p x (.of_from hp)

theorem held_first (h : Space s P shared) {PD : Nat} (hPD : s.linkAt P [0] = some PD) :
    Held s PD 1 2 where
  tree := h.tree.below (linkAt_one.symm.trans hPD) fun _ hp => .cons_zero hp
  live p x hp _ hx := by
    refine h.live (0 :: p) x (.cons_zero hp) (List.cons_ne_nil _ _) ?_
    rw [linkAt_cons p (linkAt_one.symm.trans hPD)]
    exact hx

end Space

/-- What `freePDs` leaves: the PDP and its first directory, whose other entries are absent. -/
structure Emptied (s s' : Machine) (P PD : Nat) : Prop where
  touched : Touched TMPPDPOFF s s' fun g j => 1 ≤ j ∧ (g = P ∨ g = PD)
  used : ∀ x, x ∈ s'.used ↔ x ∈ s.used ∧
    ¬∃ p, Own p ∧ p ≠ [] ∧ p ≠ [0] ∧ s.linkAt P p = some x
  absent : ∀ j, 1 ≤ j → j < 512 → (s'.mem P j).present = false ∧ (s'.mem PD j).present = false

theorem freePDs_spec {P shared PD : Nat} (h : Space s P shared) (hc : Closed TMPPDPOFF s)
    (hPD : s.linkAt P [0] = some PD) : ∃ s', s.freePDs P = .ok s' ∧ Emptied s s' P PD := by
  have hround : Round (fun s f => s.freePTs f 0) TMPPDPOFF true (fun s i => do
      let e ← s.readAt TMPPDPOFF i
      if e.present then
        assert (e.getAddr ≠ 0)
        let s ← s.freePTs e.getAddr 0
        let s ← s.free e.getAddr
        s.writeAt TMPPDPOFF i { e with present := false }
      else return s) := by
    refine ⟨fun s i e he hp => ?_, fun s i e he hp hz => ?_⟩
    · rw [he, ok_bind, hp, if_neg Bool.false_ne_true]
      rfl
    · rw [he, ok_bind, if_pos hp, decide_eq_true hz, assert_true, ok_bind]
      rfl
  obtain ⟨-, hPDz, hPDpage⟩ := h.live [0] PD .zero (List.cons_ne_nil _ _) hPD
  have hlink0 : (s.mem P 0).link = some PD := linkAt_one.symm.trans hPD
  have hne : PD ≠ P := fun hPP => by
    have heq := h.tree [0] [] P .zero .nil (hPP ▸ hPD) rfl
    exact absurd heq (List.cons_ne_nil _ _)
  -- The window of the PDP is opened.
  have hact := actTmp_eq (hc TMPPDPOFF le_rfl (by decide)) h.frame
  generalize hs1 : s.write s.pagePT TMPPDPOFF ((s.mem s.pagePT TMPPDPOFF).active P) = s1 at hact
  have hp1 : s1.pagePT = s.pagePT := by rw [← hs1]; rfl
  have hu1 : s1.used = s.used := by rw [← hs1]; rfl
  have hm1 : ∀ g j, s1.mem g j = if g = s.pagePT ∧ j = TMPPDPOFF then
      (s.mem s.pagePT TMPPDPOFF).active P else s.mem g j := by
    intro g j
    rw [← hs1]
    exact write_mem ..
  have hm1' : ∀ g j, g ≠ s.pagePT → s1.mem g j = s.mem g j := fun g j hg => by
    rw [hm1, if_neg fun hw => hg hw.1]
  have hw1 : s1.window TMPPDPOFF = .ok P :=
    window_active (s := s) h.frame (by rw [hp1, hm1, if_pos ⟨rfl, rfl⟩])
  have hc1 : Closed TMPPDOFF s1 := by
    intro k hk hkt
    have hkn : k ≠ TMPPDPOFF := by
      unfold TMPPDOFF at hk
      unfold TMPPDPOFF
      omega
    rw [hp1, hm1, if_neg fun hw => hkn hw.2]
    exact hc k (Nat.le_of_succ_le hk) hkt
  -- The first directory.
  obtain ⟨hsame1, hheld1⟩ := (h.held_first hPD).congr (t := s1) hp1
    (fun q j y hq hy => hm1' y j
      ((h.held_first hPD).ne_pagePT hPDpage ((From.closed _ _) q _ hq) hy))
    (fun p x hp hne' hx => hu1 ▸ ((h.held_first hPD).live p x hp hne' hx).1)
  have hframe0 : IsFrame PD := (link_eq_some.mp hlink0).2 ▸ isFrame_getAddr _
  obtain ⟨s2, heq2, htouch2, hrel2, hclr2⟩ :=
    freePTs_spec le_rfl hc1 hframe0 (hp1 ▸ hPDpage) hheld1
  have hp2 : s2.pagePT = s.pagePT := htouch2.pagePT.trans hp1
  have hw2 : s2.window TMPPDPOFF = .ok P :=
    (htouch2.window (n := TMPPDPOFF) fun hd => hPDpage (hd.2.1.symm.trans hp1)).trans hw1
  have hm2 : ∀ g j, g ≠ PD → g ≠ s.pagePT → s2.mem g j = s.mem g j := by
    intro g j hg hgp
    rw [htouch2.mem g j (fun hd => hg hd.2.1) (fun hw => hgp (hw.1.trans hp1)), hm1' g j hgp]
  have hbelow : ∀ x, (∃ q, From 1 2 q ∧ q ≠ [] ∧ s1.linkAt PD q = some x) ↔
      ∃ q, From 1 2 q ∧ q ≠ [] ∧ s.linkAt P (0 :: q) = some x := by
    intro x
    refine exists_congr fun q => and_congr_right fun hq => and_congr_right fun _ => ?_
    rw [hsame1 q hq, linkAt_cons q hlink0]
  -- The other directories.
  obtain ⟨hsame2, hheld2⟩ := h.held.congr (t := s2) hp2
    (fun q j y hq hy => by
      have hq' := (From.closed 1 3) q _ hq
      refine hm2 y j ?_ (h.held.ne_pagePT h.ne_pagePT hq' hy)
      rintro rfl
      have heq := h.tree q [0] y (.of_from hq') .zero hy hPD
      subst heq
      exact absurd (hq'.first 0 [] rfl) (by decide))
    (fun p x hp hne' hx => by
      refine (hrel2 x).mpr ⟨hu1 ▸ (h.live p x (.of_from hp) hne' hx).1, fun hin => ?_⟩
      obtain ⟨q, hq, -, hqx⟩ := (hbelow x).mp hin
      have heq := h.tree _ _ x (.cons_zero hq) (.of_from hp) hqx hx
      subst heq
      exact absurd (hp.first 0 q rfl) (by decide))
  obtain ⟨s3, heq3, htouch3, hrel3, hclr3⟩ := hround.loop freePTs_releases hw2 htouch2.closed
    (hp2 ▸ h.ne_pagePT) hheld2 (by decide)
  have hp3 : s3.pagePT = s.pagePT := htouch3.pagePT.trans hp2
  refine ⟨s3.freeTmp TMPPDPOFF, ?_, ⟨⟨?_, hp3, fun g j hd hw => ?_, fun k hk hkt => ?_⟩,
    fun x => ?_, fun j hj hlt => ⟨?_, ?_⟩⟩⟩
  · unfold freePDs
    rw [hact, ok_bind, readAt_eq hw1, ok_bind, hm1' P 0 h.ne_pagePT, (link_eq_some.mp hlink0).2,
      heq2, ok_bind, heq3]
    rfl
  · refine htouch3.pml4.trans (htouch2.pml4.trans ?_)
    rw [← hs1]
    rfl
  · have hgn : ¬(g = s.pagePT ∧ j = TMPPDPOFF) := fun hg => hw ⟨hg.1, hg.2.ge, hg.2 ▸ by decide⟩
    rw [freeTmp_mem, hp3, if_neg hgn, htouch3.mem g j (fun hd' => hd ⟨hd'.2.2, .inl hd'.2.1⟩)
      (fun hg => hw ⟨hg.1.trans hp2, Nat.le_of_succ_le hg.2.1, hg.2.2⟩),
      htouch2.mem g j (fun hd' => hd ⟨hd'.2.2, .inr hd'.2.1⟩)
      (fun hg => hw ⟨hg.1.trans hp1, Nat.le_of_succ_le hg.2.1, hg.2.2⟩), hm1, if_neg hgn]
  · rw [freeTmp_pagePT, freeTmp_mem]
    by_cases hkn : k = TMPPDPOFF
    · rw [if_pos ⟨rfl, hkn⟩]
    · rw [if_neg fun hk => hkn hk.2]
      exact htouch3.closed k (Nat.lt_of_le_of_ne hk (Ne.symm hkn)) hkt
  · rw [freeTmp_used, hrel3 x, hrel2 x, hu1, hbelow x, and_assoc, ← not_or]
    refine and_congr_right fun _ => not_congr ⟨?_, ?_⟩
    · rintro (⟨q, hq, hne', hx⟩ | ⟨p, hp, hne', hx⟩)
      · exact ⟨0 :: q, .cons_zero hq, List.cons_ne_nil _ _, fun heq => hne' (List.cons.inj heq).2, hx⟩
      · refine ⟨p, .of_from hp, hne', ?_, (hsame2 p hp).symm.trans hx⟩
        rintro rfl
        exact absurd (hp.first 0 [] rfl) (by decide)
    · rintro ⟨p, hp, hne', hne0, hx⟩
      rcases hp.cases with hp | ⟨q, rfl, hq⟩
      · exact .inr ⟨p, hp, hne', (hsame2 p hp).trans hx⟩
      · exact .inl ⟨q, hq, fun hq0 => hne0 (hq0 ▸ rfl), hx⟩
  · rw [freeTmp_mem, hp3, if_neg fun hg => h.ne_pagePT hg.1]
    exact hclr3 rfl j hj hlt
  · rw [freeTmp_mem, hp3, if_neg fun hg => hPDpage hg.1, htouch3.mem PD j (fun hd => hne hd.2.1)
      fun hg => hPDpage (hg.1.trans hp2)]
    exact hclr2 rfl j hj hlt

end Machine

end SupOS
