import SupOS.Libcpp.SharedPtr

/-! What the counts of `shared_ptr` and `weak_ptr` count, and the operations after which they still do. -/

namespace SupOS.Libcpp

open Lib

namespace Ptr

/-- A shared pointer with this count block. -/
def isOwner (c : Nat) : Option Ptr → Bool
  | some p => p.kind = .shared ∧ p.count = some c
  | none => false

/-- A pointer of either kind with this count block. -/
def refers (c : Nat) : Option Ptr → Bool
  | some p => p.count = some c
  | none => false

/-- A place for a pointer that counts nothing. -/
def isNull : Option Ptr → Prop
  | some p => p.ptr = none ∧ p.count = none
  | none => True

end Ptr

namespace Pointers

open Ptr

variable (s : Pointers)

def owners (c : Nat) : Nat := s.ptrs.countP (isOwner c)

def total (c : Nat) : Nat := s.ptrs.countP (refers c)

/-- The counts are the numbers of pointers, and the objects and count blocks that exist are those that
are pointed to. -/
structure Counted : Prop where
  count : ∀ c k, s.counts[c]? = some (some k) →
    k.nbOwner.toNat = s.owners c ∧ k.nbTotal.toNat = s.total c
  block : ∀ c, (∃ k, s.counts[c]? = some (some k)) ↔ ∃ p, some p ∈ s.ptrs ∧ p.count = some c
  object : ∀ o, s.objects[o]? = some true ↔
    ∃ p, some p ∈ s.ptrs ∧ p.kind = .shared ∧ p.ptr = some o
  made : ∀ p o, some p ∈ s.ptrs → p.ptr = some o → o < s.objects.length
  same : ∀ p q o, some p ∈ s.ptrs → some q ∈ s.ptrs → p.ptr = some o → q.ptr = some o →
    p.count = q.count
  target : ∀ p q c, some p ∈ s.ptrs → some q ∈ s.ptrs → p.count = some c → q.count = some c →
    p.ptr = q.ptr
  null : ∀ p, some p ∈ s.ptrs → p.count = none → p.ptr = none

theorem owners_pos {s : Pointers} {c : Nat} :
    0 < s.owners c ↔ ∃ p, some p ∈ s.ptrs ∧ p.kind = .shared ∧ p.count = some c := by
  rw [owners, List.countP_pos_iff]
  constructor
  · rintro ⟨e, he, h⟩
    cases e with
    | none => cases h
    | some p => exact ⟨p, he, by simpa [isOwner] using h⟩
  · rintro ⟨p, hp, h⟩
    exact ⟨some p, hp, by simpa [isOwner] using h⟩

theorem total_pos {s : Pointers} {c : Nat} :
    0 < s.total c ↔ ∃ p, some p ∈ s.ptrs ∧ p.count = some c := by
  rw [total, List.countP_pos_iff]
  constructor
  · rintro ⟨e, he, h⟩
    cases e with
    | none => cases h
    | some p => exact ⟨p, he, by simpa [refers] using h⟩
  · rintro ⟨p, hp, h⟩
    exact ⟨some p, hp, by simpa [refers] using h⟩

theorem isNull_isOwner {e : Option Ptr} {c : Nat} (he : isNull e) : isOwner c e = false := by
  cases e with
  | none => rfl
  | some p => simp [isOwner, he.2]

theorem isNull_refers {e : Option Ptr} {c : Nat} (he : isNull e) : refers c e = false := by
  cases e with
  | none => rfl
  | some p => simp [refers, he.2]

section Put

variable {s} {i : Nat} {e e' : Option Ptr} {p : Ptr}

@[simp] theorem put_objects : (s.put i e).objects = s.objects := rfl

@[simp] theorem put_counts : (s.put i e).counts = s.counts := rfl

theorem countP_put (f : Option Ptr → Bool) (e' : Option Ptr) (hi : s.ptrs[i]? = some e) :
    (s.put i e').ptrs.countP f + (f e).toNat = s.ptrs.countP f + (f e').toNat := by
  obtain ⟨hlt, rfl⟩ := List.getElem?_eq_some_iff.mp hi
  have hset := List.countP_set (p := f) (a := e') hlt
  have hpos : f s.ptrs[i] = true → 0 < s.ptrs.countP f := fun h =>
    List.countP_pos_iff.mpr ⟨_, List.getElem_mem hlt, h⟩
  rw [put, hset]
  cases h : f s.ptrs[i] <;> cases f e' <;> simp_all

theorem mem_put (h : some p ∈ (s.put i e).ptrs) : some p ∈ s.ptrs ∨ some p = e :=
  List.mem_or_eq_of_mem_set h

theorem mem_put_self (hi : s.ptrs[i]? = some e) : e' ∈ (s.put i e').ptrs := by
  obtain ⟨hlt, _⟩ := List.getElem?_eq_some_iff.mp hi
  exact List.mem_set hlt e'

theorem mem_put_of_ne (hi : s.ptrs[i]? = some e) (h : some p ∈ s.ptrs) (hne : some p ≠ e) :
    some p ∈ (s.put i e').ptrs := by
  obtain ⟨j, hj⟩ := List.mem_iff_getElem?.mp h
  have hij : i ≠ j := by
    rintro rfl
    rw [hi] at hj
    exact hne (Option.some.inj hj).symm
  exact List.mem_iff_getElem?.mpr ⟨j, by rw [put, List.getElem?_set_ne hij]; exact hj⟩

/-- A pointer beside a place that counts nothing. -/
theorem mem_of_put (hnull : isNull e) (h : some p ∈ (s.put i e).ptrs) (hp : p.count ≠ none) :
    some p ∈ s.ptrs :=
  (mem_put h).resolve_right fun he => by
    subst he
    exact hp hnull.2

end Put


section Release

variable {s} {i c : Nat} {e : Option Ptr} {p : Ptr} {k : Count}

/-- The objects without the one of the last owner. -/
def dropped (p : Ptr) (k : Count) : List Bool :=
  if p.kind = .shared ∧ k.nbOwner = 0 then
    match p.ptr with
    | some o => s.objects.set o false
    | none => s.objects
  else s.objects

/-- The state in which a pointer counts no more. -/
def released (p : Ptr) (c : Nat) (k : Count) : Pointers :=
  { s with
    objects := dropped (s := s) p (k.decr p.kind)
    counts := s.counts.set c (if (k.decr p.kind).nbTotal = 0 then none else some (k.decr p.kind)) }

theorem Counted.deref (hs : s.Counted) (hp : some p ∈ s.ptrs) (hc : p.count = some c) :
    ∃ k, s.counts[c]? = some (some k) ∧ s.deref c = .ok k := by
  obtain ⟨k, hk⟩ := (hs.block c).mpr ⟨p, hp, hc⟩
  exact ⟨k, hk, by rw [Pointers.deref, hk]⟩

theorem Counted.release_eq (hs : s.Counted) (hp : some p ∈ s.ptrs) (hc : p.count = some c)
    (hk : s.deref c = .ok k) : s.release p = .ok (released (s := s) p c k) := by
  have hdelete (counts : List (Option Count)) (hkind : p.kind = .shared) :
      ({ s with counts } : Pointers).delete p.ptr = .ok { s with
        counts
        objects := match p.ptr with
          | some o => s.objects.set o false
          | none => s.objects } := by
    cases hptr : p.ptr with
    | none => rfl
    | some o => rw [delete, if_pos ((hs.object o).mpr ⟨p, hp, hkind, hptr⟩)]
  simp only [release, hc, hk, ok_bind, released, dropped]
  split
  · rename_i hlast
    rw [hdelete _ hlast.1, ok_bind]
    split <;> simp only [List.set_set, pure, Except.pure]
  · simp only [pure, Except.pure, ok_bind]
    split <;> simp only [List.set_set]

theorem getElem?_dropped {o : Nat} : (dropped (s := s) p k)[o]? = some true ↔
    s.objects[o]? = some true ∧ ¬(p.kind = .shared ∧ k.nbOwner = 0 ∧ p.ptr = some o) := by
  unfold dropped
  split
  · rename_i hlast
    cases hptr : p.ptr with
    | none => simp
    | some o' =>
      simp only [List.getElem?_set, Option.some.injEq, hlast, true_and]
      by_cases ho : o' = o
      · subst ho
        simp
      · simp [ho]
  · rename_i hlast
    exact ⟨fun h => ⟨h, fun h' => hlast ⟨h'.1, h'.2.1⟩⟩, fun h => h.1⟩

/-- The counts of `release` are those without the pointer. -/
theorem Counted.decr (hs : s.Counted) (hi : s.ptrs[i]? = some (some p)) (hc : p.count = some c)
    (hk : s.counts[c]? = some (some k)) (he : isNull e) :
    (k.decr p.kind).nbOwner.toNat = (s.put i e).owners c ∧
      (k.decr p.kind).nbTotal.toNat = (s.put i e).total c := by
  obtain ⟨howner, htotal⟩ := hs.count c k hk
  have hputOwner := countP_put (isOwner c) e hi
  have hputTotal := countP_put (refers c) e hi
  have hrefers : refers c (some p) = true := by simp [refers, hc]
  rw [isNull_isOwner he] at hputOwner
  rw [isNull_refers he, hrefers] at hputTotal
  have hsub : ∀ n : UInt32, 1 ≤ n.toNat → (n - 1).toNat = n.toNat - 1 := fun n hn =>
    UInt32.toNat_sub_of_le n 1 (UInt32.le_iff_toNat_le.mpr hn)
  simp only [owners, total, Bool.toNat_true, Bool.toNat_false] at *
  cases hkind : p.kind with
  | shared =>
    have : isOwner c (some p) = true := by simp [isOwner, hkind, hc]
    rw [this, Bool.toNat_true] at hputOwner
    simp only [Count.decr]
    rw [hsub _ (by omega), hsub _ (by omega)]
    omega
  | weak =>
    have : isOwner c (some p) = false := by simp [isOwner, hkind]
    rw [this, Bool.toNat_false] at hputOwner
    simp only [Count.decr]
    rw [hsub _ (by omega)]
    omega

/-- The other pointers lose no count. -/
theorem other_put {c' : Nat} (hi : s.ptrs[i]? = some (some p)) (hc : p.count = some c)
    (he : isNull e) (hne : c ≠ c') :
    (s.put i e).owners c' = s.owners c' ∧ (s.put i e).total c' = s.total c' := by
  have hputOwner := countP_put (isOwner c') e hi
  have hputTotal := countP_put (refers c') e hi
  have hrefers : refers c' (some p) = false := by simp [refers, hc, hne]
  have howner : isOwner c' (some p) = false := by simp [isOwner, hc, hne]
  rw [isNull_isOwner he, howner] at hputOwner
  rw [isNull_refers he, hrefers] at hputTotal
  exact ⟨Nat.add_right_cancel hputOwner, Nat.add_right_cancel hputTotal⟩

theorem Counted.released (hs : s.Counted) (hi : s.ptrs[i]? = some (some p)) (hc : p.count = some c)
    (hk : s.counts[c]? = some (some k)) (he : isNull e) :
    ((Pointers.released (s := s) p c k).put i e).Counted := by
  obtain ⟨hdecrOwner, hdecrTotal⟩ := hs.decr hi hc hk he
  have hp : some p ∈ s.ptrs := List.mem_of_getElem? hi
  have hmem {q : Ptr} (hq : some q ∈ (s.put i e).ptrs) (h : q.count ≠ none) : some q ∈ s.ptrs :=
    mem_of_put he hq h
  have hkeep {q : Ptr} (hq : some q ∈ s.ptrs) (h : q ≠ p) : some q ∈ (s.put i e).ptrs :=
    mem_put_of_ne hi hq fun h' => h (Option.some.inj h')
  have hptr {q : Ptr} {o : Nat} (hq : some q ∈ (s.put i e).ptrs) (h : q.ptr = some o) :
      some q ∈ s.ptrs := (mem_put hq).resolve_right fun h' => by
    subst h'
    cases h.symm.trans he.1
  have hlt : c < s.counts.length := (List.getElem?_eq_some_iff.mp hk).1
  refine ⟨fun c' k' h => ?_, fun c' => ?_, fun o => ?_, fun q o hq h => ?_,
    fun q r o hq hr h h' => ?_, fun q r c' hq hr h h' => ?_, fun q hq h => ?_⟩
  · change (s.counts.set c _)[c']? = _ at h
    by_cases hcc : c = c'
    · subst hcc
      rw [List.getElem?_set_self hlt, Option.some.injEq] at h
      split at h
      · cases h
      · obtain rfl := Option.some.inj h
        exact ⟨hdecrOwner, hdecrTotal⟩
    · rw [List.getElem?_set_ne hcc] at h
      obtain ⟨ho, ht⟩ := other_put hi hc he hcc
      exact ⟨(hs.count c' k' h).1.trans ho.symm, (hs.count c' k' h).2.trans ht.symm⟩
  · change (∃ k', (s.counts.set c _)[c']? = _) ↔ ∃ q, some q ∈ (s.put i e).ptrs ∧ _
    by_cases hcc : c = c'
    · subst hcc
      rw [← total_pos, ← hdecrTotal, List.getElem?_set_self hlt]
      split
      · rename_i hzero
        simp [hzero]
      · rename_i hzero
        exact ⟨fun _ => Nat.pos_of_ne_zero fun h => hzero (UInt32.toNat_inj.mp h), fun _ => ⟨_, rfl⟩⟩
    · rw [List.getElem?_set_ne hcc, hs.block, ← total_pos, ← total_pos, (other_put hi hc he hcc).2]
  · change (dropped _ _)[o]? = some true ↔ ∃ q, some q ∈ (s.put i e).ptrs ∧ _
    rw [getElem?_dropped, hs.object]
    constructor
    · rintro ⟨⟨q, hq, hkind, hqo⟩, hlast⟩
      by_cases hqp : q = p
      · subst hqp
        have howners : 0 < (s.put i e).owners c := by
          rw [← hdecrOwner]
          exact Nat.pos_of_ne_zero fun h => hlast ⟨hkind, UInt32.toNat_inj.mp h, hqo⟩
        obtain ⟨r, hr, hrkind, hrc⟩ := owners_pos.mp howners
        exact ⟨r, hr, hrkind, (hs.target r q c (hmem hr (by simp [hrc])) hp hrc hc).trans hqo⟩
      · exact ⟨q, hkeep hq hqp, hkind, hqo⟩
    · rintro ⟨q, hq, hkind, hqo⟩
      refine ⟨⟨q, hptr hq hqo, hkind, hqo⟩, fun ⟨_, hzero, hpo⟩ => ?_⟩
      have hqc : q.count = some c := (hs.same q p o (hptr hq hqo) hp hqo hpo).trans hc
      have howners : 0 < (s.put i e).owners c := owners_pos.mpr ⟨q, hq, hkind, hqc⟩
      rw [← hdecrOwner, hzero] at howners
      exact Nat.lt_irrefl 0 howners
  · have hlen : (dropped (s := s) p (k.decr p.kind)).length = s.objects.length := by
      unfold dropped
      split
      · split <;> simp
      · rfl
    exact Nat.lt_of_lt_of_eq (hs.made q o (hptr hq h) h) hlen.symm
  · exact hs.same q r o (hptr hq h) (hptr hr h') h h'
  · exact hs.target q r c' (hmem hq (by simp [h])) (hmem hr (by simp [h'])) h h'
  · obtain hq | rfl := mem_put hq
    · exact hs.null q hq h
    · exact he.1

/-- Places that count nothing are alike. -/
theorem Counted.putNull {e₀ : Option Ptr} (hs : s.Counted) (hi : s.ptrs[i]? = some e₀)
    (he₀ : isNull e₀) (he : isNull e) : (s.put i e).Counted := by
  have howners (c : Nat) : (s.put i e).owners c = s.owners c := by
    have := countP_put (isOwner c) e hi
    rwa [isNull_isOwner he, isNull_isOwner he₀] at this
  have htotal (c : Nat) : (s.put i e).total c = s.total c := by
    have := countP_put (refers c) e hi
    rwa [isNull_refers he, isNull_refers he₀] at this
  have hmem {q : Ptr} (hq : some q ∈ (s.put i e).ptrs) : some q ∈ s.ptrs ∨ q.ptr = none :=
    (mem_put hq).imp_right fun h => by
      subst h
      exact he.1
  have hptr {q : Ptr} {o : Nat} (hq : some q ∈ (s.put i e).ptrs) (h : q.ptr = some o) :
      some q ∈ s.ptrs := (hmem hq).resolve_right (by simp [h])
  have hcount {q : Ptr} {c : Nat} (hq : some q ∈ (s.put i e).ptrs) (h : q.count = some c) :
      some q ∈ s.ptrs := mem_of_put he hq (by simp [h])
  refine ⟨fun c k h => ?_, fun c => ?_, fun o => ?_, fun q o hq h => hs.made q o (hptr hq h) h,
    fun q r o hq hr h h' => hs.same q r o (hptr hq h) (hptr hr h') h h',
    fun q r c hq hr h h' => hs.target q r c (hcount hq h) (hcount hr h') h h', fun q hq h => ?_⟩
  · rw [howners, htotal]
    exact hs.count c k h
  · rw [put_counts, hs.block, ← total_pos, ← total_pos, htotal]
  · rw [put_objects, hs.object]
    refine ⟨fun ⟨q, hq, hkind, hqo⟩ => ⟨q, mem_put_of_ne hi hq ?_, hkind, hqo⟩,
      fun ⟨q, hq, hkind, hqo⟩ => ⟨q, hptr hq hqo, hkind, hqo⟩⟩
    rintro rfl
    cases hqo.symm.trans he₀.1
  · obtain hq | hq := hmem hq
    · exact hs.null q hq h
    · exact hq

/-- A pointer that counts no more, at a place that is given up. -/
theorem Counted.release (hs : s.Counted) (hi : s.ptrs[i]? = some (some p)) :
    ∃ s', s.release p = .ok s' ∧ s'.ptrs = s.ptrs ∧ ∀ e, isNull e → (s'.put i e).Counted := by
  have hp : some p ∈ s.ptrs := List.mem_of_getElem? hi
  cases hc : p.count with
  | none =>
    exact ⟨s, by rw [Pointers.release, hc], rfl,
      fun e he => hs.putNull hi ⟨hs.null p hp hc, hc⟩ he⟩
  | some c =>
    obtain ⟨k, hk, hderef⟩ := hs.deref hp hc
    exact ⟨_, hs.release_eq hp hc hderef, rfl, fun e he => hs.released hi hc hk he⟩

end Release

section Retain

variable {s} {i c : Nat} {e : Option Ptr} {x : Ptr} {k : Count}

theorem owners_le_total (c : Nat) : s.owners c ≤ s.total c := by
  refine List.countP_mono_left fun e _ h => ?_
  cases e with
  | none => cases h
  | some p =>
    simp only [isOwner, refers, decide_eq_true_eq] at h ⊢
    exact h.2

/-- A further pointer like `x`, at a place that counted nothing. -/
theorem Counted.retained (kind : PtrKind) (hs : s.Counted) (hi : s.ptrs[i]? = some e) (he : isNull e)
    (hx : some x ∈ s.ptrs) (hc : x.count = some c) (hk : s.counts[c]? = some (some k))
    (hroom : k.nbTotal.toNat + 1 < 2 ^ 32)
    (hlive : kind = .shared → ∀ o, x.ptr = some o → s.objects[o]? = some true) :
    (({ s with counts := s.counts.set c (some (k.incr kind)) } : Pointers).put i
      (some { x with kind })).Counted := by
  obtain ⟨howner, htotal⟩ := hs.count c k hk
  have hle := owners_le_total (s := s) c
  have hlt : c < s.counts.length := (List.getElem?_eq_some_iff.mp hk).1
  have hputOwner (c' : Nat) := countP_put (isOwner c') (some { x with kind }) hi
  have hputTotal (c' : Nat) := countP_put (refers c') (some { x with kind }) hi
  have hsucc : ∀ n : UInt32, n.toNat + 1 < 2 ^ 32 → (n + 1).toNat = n.toNat + 1 := fun n hn => by
    rw [UInt32.toNat_add]
    exact Nat.mod_eq_of_lt hn
  have hsource {q : Ptr} (hq : some q ∈ (s.put i (some { x with kind })).ptrs) :
      ∃ q₀, some q₀ ∈ s.ptrs ∧ q₀.ptr = q.ptr ∧ q₀.count = q.count := by
    obtain hq | hq := mem_put hq
    · exact ⟨q, hq, rfl, rfl⟩
    · obtain rfl := Option.some.inj hq
      exact ⟨x, hx, rfl, rfl⟩
  have hkeep {q : Ptr} (hq : some q ∈ s.ptrs) (h : q.count ≠ none) :
      some q ∈ (s.put i (some { x with kind })).ptrs :=
    mem_put_of_ne hi hq fun h' => by
      subst h'
      exact h he.2
  have hself : some { x with kind } ∈ (s.put i (some { x with kind })).ptrs := mem_put_self hi
  refine ⟨fun c' k' h => ?_, fun c' => ?_, fun o => ?_, fun q o hq h => ?_,
    fun q r o hq hr h h' => ?_, fun q r c' hq hr h h' => ?_, fun q hq h => ?_⟩
  · change (s.counts.set c _)[c']? = _ at h
    change k'.nbOwner.toNat = (s.put i _).owners c' ∧ k'.nbTotal.toNat = (s.put i _).total c'
    have ho := hputOwner c'
    have ht := hputTotal c'
    rw [isNull_isOwner he, Bool.toNat_false] at ho
    rw [isNull_refers he, Bool.toNat_false] at ht
    simp only [owners, total] at *
    by_cases hcc : c = c'
    · subst hcc
      rw [List.getElem?_set_self hlt, Option.some.injEq, Option.some.injEq] at h
      subst h
      have hrefers : refers c (some { x with kind }) = true := by simp [refers, hc]
      rw [hrefers, Bool.toNat_true] at ht
      cases kind with
      | shared =>
        have hown : isOwner c (some { x with kind := .shared }) = true := by simp [isOwner, hc]
        rw [hown, Bool.toNat_true] at ho
        simp only [Count.incr]
        rw [hsucc _ hroom, hsucc _ (by omega)]
        omega
      | weak =>
        have hown : isOwner c (some { x with kind := .weak }) = false := by simp [isOwner]
        rw [hown, Bool.toNat_false] at ho
        simp only [Count.incr]
        rw [hsucc _ hroom]
        omega
    · rw [List.getElem?_set_ne hcc] at h
      have hrefers : refers c' (some { x with kind }) = false := by simp [refers, hc, hcc]
      have hown : isOwner c' (some { x with kind }) = false := by simp [isOwner, hc, hcc]
      rw [hown, Bool.toNat_false] at ho
      rw [hrefers, Bool.toNat_false] at ht
      have := hs.count c' k' h
      simp only [owners, total] at this
      omega
  · change (∃ k', (s.counts.set c _)[c']? = _) ↔ ∃ q, some q ∈ (s.put i _).ptrs ∧ _
    by_cases hcc : c = c'
    · subst hcc
      exact ⟨fun _ => ⟨_, hself, hc⟩, fun _ => ⟨_, List.getElem?_set_self hlt⟩⟩
    · rw [List.getElem?_set_ne hcc, hs.block]
      constructor
      · rintro ⟨q, hq, hqc⟩
        exact ⟨q, hkeep hq (by simp [hqc]), hqc⟩
      · rintro ⟨q, hq, hqc⟩
        obtain ⟨q₀, hq₀, -, hcount⟩ := hsource hq
        exact ⟨q₀, hq₀, hcount.trans hqc⟩
  · change s.objects[o]? = some true ↔ ∃ q, some q ∈ (s.put i _).ptrs ∧ _
    constructor
    · intro h
      obtain ⟨q, hq, hkind, hqo⟩ := (hs.object o).mp h
      refine ⟨q, hkeep hq fun hnone => ?_, hkind, hqo⟩
      cases hqo.symm.trans (hs.null q hq hnone)
    · rintro ⟨q, hq, hkind, hqo⟩
      obtain hq | hq := mem_put hq
      · exact (hs.object o).mpr ⟨q, hq, hkind, hqo⟩
      · obtain rfl := Option.some.inj hq
        exact hlive hkind o hqo
  · obtain ⟨q₀, hq₀, hptr, -⟩ := hsource hq
    exact hs.made q₀ o hq₀ (hptr.trans h)
  · obtain ⟨q₀, hq₀, hqptr, hqcount⟩ := hsource hq
    obtain ⟨r₀, hr₀, hrptr, hrcount⟩ := hsource hr
    rw [← hqcount, ← hrcount]
    exact hs.same q₀ r₀ o hq₀ hr₀ (hqptr.trans h) (hrptr.trans h')
  · obtain ⟨q₀, hq₀, hqptr, hqcount⟩ := hsource hq
    obtain ⟨r₀, hr₀, hrptr, hrcount⟩ := hsource hr
    rw [← hqptr, ← hrptr]
    exact hs.target q₀ r₀ c' hq₀ hr₀ (hqcount.trans h) (hrcount.trans h')
  · obtain ⟨q₀, hq₀, hptr, hcount⟩ := hsource hq
    rw [← hptr]
    exact hs.null q₀ hq₀ (hcount.trans h)

end Retain

section Fresh

variable {s} {i : Nat} {e : Option Ptr}

theorem Counted.lt_counts (hs : s.Counted) {p : Ptr} {c : Nat} (hp : some p ∈ s.ptrs)
    (hc : p.count = some c) : c < s.counts.length := by
  obtain ⟨k, hk⟩ := (hs.block c).mpr ⟨p, hp, hc⟩
  exact (List.getElem?_eq_some_iff.mp hk).1

/-- A first pointer to a new object, or to none. -/
theorem Counted.newCount (object : Bool) (hs : s.Counted) (hi : s.ptrs[i]? = some e) (he : isNull e) :
    ((s.newCount object).2.put i (some (s.newCount object).1)).Counted := by
  have hsource {q : Ptr} (hq : some q ∈ (s.put i (some (s.newCount object).1)).ptrs) :
      some q ∈ s.ptrs ∨ q = (s.newCount object).1 := (mem_put hq).imp_right Option.some.inj
  have hkeep {q : Ptr} (hq : some q ∈ s.ptrs) (h : q.count ≠ none) :
      some q ∈ (s.put i (some (s.newCount object).1)).ptrs :=
    mem_put_of_ne hi hq fun h' => by
      subst h'
      exact h he.2
  have hself : some (s.newCount object).1 ∈ (s.put i (some (s.newCount object).1)).ptrs :=
    mem_put_self hi
  have hnew {o : Nat} (h : (s.newCount object).1.ptr = some o) :
      object = true ∧ o = s.objects.length := by
    cases object with
    | false => cases h
    | true => exact ⟨rfl, (Option.some.inj h).symm⟩
  have hobjects : (s.newCount object).2.objects = if object then s.objects ++ [true]
    else s.objects := rfl
  have hcounts : (s.newCount object).2.counts = s.counts ++ [some ⟨1, 1⟩] := rfl
  refine ⟨fun c k h => ?_, fun c => ?_, fun o => ?_, fun q o hq h => ?_,
    fun q r o hq hr h h' => ?_, fun q r c hq hr h h' => ?_, fun q hq h => ?_⟩
  · change k.nbOwner.toNat = (s.put i _).owners c ∧ k.nbTotal.toNat = (s.put i _).total c
    have ho := countP_put (isOwner c) (some (s.newCount object).1) hi
    have ht := countP_put (refers c) (some (s.newCount object).1) hi
    rw [isNull_isOwner he, Bool.toNat_false] at ho
    rw [isNull_refers he, Bool.toNat_false] at ht
    rw [put_counts, hcounts, List.getElem?_append] at h
    split at h
    · rename_i hlt
      have hne : s.counts.length ≠ c := Nat.ne_of_gt hlt
      have hrefers : refers c (some (s.newCount object).1) = false := by
        simp [refers, Pointers.newCount, hne]
      have hown : isOwner c (some (s.newCount object).1) = false := by
        simp [isOwner, Pointers.newCount, hne]
      rw [hown, Bool.toNat_false] at ho
      rw [hrefers, Bool.toNat_false] at ht
      have := hs.count c k h
      simp only [owners, total] at *
      omega
    · obtain ⟨hlt, hk⟩ := List.getElem?_eq_some_iff.mp h
      obtain rfl : c = s.counts.length := by
        simp only [List.length_cons, List.length_nil] at hlt
        omega
      simp only [Nat.sub_self, List.getElem_cons_zero, Option.some.injEq] at hk
      have hrefers : refers s.counts.length (some (s.newCount object).1) = true := by
        simp [refers, Pointers.newCount]
      have hown : isOwner s.counts.length (some (s.newCount object).1) = true := by
        simp [isOwner, Pointers.newCount]
      have hzero : ¬0 < s.total s.counts.length := fun h => by
        obtain ⟨p, hp, hc⟩ := total_pos.mp h
        exact Nat.lt_irrefl _ (hs.lt_counts hp hc)
      have hle := owners_le_total (s := s) s.counts.length
      rw [hown, Bool.toNat_true] at ho
      rw [hrefers, Bool.toNat_true] at ht
      subst hk
      have hone : (1 : UInt32).toNat = 1 := rfl
      simp only [owners, total, hone] at *
      omega
  · rw [put_counts, hcounts]
    constructor
    · rintro ⟨k, hk⟩
      rw [List.getElem?_append] at hk
      split at hk
      · obtain ⟨q, hq, hqc⟩ := (hs.block c).mp ⟨k, hk⟩
        exact ⟨q, hkeep hq (by simp [hqc]), hqc⟩
      · obtain ⟨hlt, -⟩ := List.getElem?_eq_some_iff.mp hk
        obtain rfl : c = s.counts.length := by
          simp only [List.length_cons, List.length_nil] at hlt
          omega
        exact ⟨_, hself, rfl⟩
    · rintro ⟨q, hq, hqc⟩
      obtain hq | rfl := hsource hq
      · obtain ⟨k, hk⟩ := (hs.block c).mpr ⟨q, hq, hqc⟩
        exact ⟨k, by rw [List.getElem?_append_left (hs.lt_counts hq hqc), hk]⟩
      · obtain rfl := Option.some.inj hqc
        exact ⟨⟨1, 1⟩, by simp⟩
  · rw [put_objects, hobjects]
    constructor
    · intro h
      by_cases hlt : o < s.objects.length
      · have hold : s.objects[o]? = some true := by
          split at h
          · rwa [List.getElem?_append_left hlt] at h
          · exact h
        obtain ⟨q, hq, hkind, hqo⟩ := (hs.object o).mp hold
        refine ⟨q, hkeep hq fun hnone => ?_, hkind, hqo⟩
        cases hqo.symm.trans (hs.null q hq hnone)
      · split at h
        · rename_i hobj
          obtain ⟨hlt', -⟩ := List.getElem?_eq_some_iff.mp h
          refine ⟨_, hself, rfl, ?_⟩
          simp only [List.length_append, List.length_cons, List.length_nil] at hlt'
          simp only [Pointers.newCount, hobj, if_true, Option.some.injEq]
          omega
        · exact absurd (List.getElem?_eq_some_iff.mp h).1 hlt
    · rintro ⟨q, hq, hkind, hqo⟩
      obtain hq | rfl := hsource hq
      · have hold := (hs.object o).mpr ⟨q, hq, hkind, hqo⟩
        split
        · rw [List.getElem?_append_left (hs.made q o hq hqo), hold]
        · exact hold
      · obtain ⟨rfl, rfl⟩ := hnew hqo
        simp
  · rw [put_objects, hobjects]
    obtain hq | rfl := hsource hq
    · have := hs.made q o hq h
      split
      · rw [List.length_append]
        exact Nat.lt_add_right _ this
      · exact this
    · obtain ⟨rfl, rfl⟩ := hnew h
      simp
  · obtain hq | rfl := hsource hq <;> obtain hr | rfl := hsource hr
    · exact hs.same q r o hq hr h h'
    · exact absurd (hs.made q o hq h) (by rw [(hnew h').2]; exact Nat.lt_irrefl _)
    · exact absurd (hs.made r o hr h') (by rw [(hnew h).2]; exact Nat.lt_irrefl _)
    · rfl
  · obtain hq | rfl := hsource hq <;> obtain hr | rfl := hsource hr
    · exact hs.target q r c hq hr h h'
    · obtain rfl := Option.some.inj h'
      exact absurd (hs.lt_counts hq h) (Nat.lt_irrefl _)
    · obtain rfl := Option.some.inj h
      exact absurd (hs.lt_counts hr h') (Nat.lt_irrefl _)
    · rfl
  · obtain hq | rfl := hsource hq
    · exact hs.null q hq h
    · cases h

end Fresh

section Places

variable {s} {s' : Pointers}

/-- The places of the pointers do not matter, nor do places that are given up. -/
theorem Counted.congr (hs : s.Counted) (hobjects : s'.objects = s.objects)
    (hcounts : s'.counts = s.counts) (hmem : ∀ p, some p ∈ s'.ptrs ↔ some p ∈ s.ptrs)
    (howners : ∀ c, s'.owners c = s.owners c) (htotal : ∀ c, s'.total c = s.total c) :
    s'.Counted where
  count c k h := by
    rw [howners, htotal]
    exact hs.count c k (hcounts ▸ h)
  block c := by
    simp only [hcounts, hmem]
    exact hs.block c
  object o := by
    simp only [hobjects, hmem]
    exact hs.object o
  made p o hp h := hobjects ▸ hs.made p o ((hmem p).mp hp) h
  same p q o hp hq := hs.same p q o ((hmem p).mp hp) ((hmem q).mp hq)
  target p q c hp hq := hs.target p q c ((hmem p).mp hp) ((hmem q).mp hq)
  null p hp := hs.null p ((hmem p).mp hp)

theorem Counted.perm (ptrs : List (Option Ptr)) (hs : s.Counted) (h : ptrs.Perm s.ptrs) :
    ({ s with ptrs } : Pointers).Counted :=
  hs.congr rfl rfl (fun _ => h.mem_iff) (fun _ => h.countP_eq _) fun _ => h.countP_eq _

/-- A place for the next pointer. -/
def pad (s : Pointers) : Pointers := { s with ptrs := s.ptrs ++ [none] }

theorem Counted.pad (hs : s.Counted) : s.pad.Counted :=
  hs.congr rfl rfl (fun p => by simp [Pointers.pad]) (fun c => by simp [Pointers.pad, owners, isOwner])
    fun c => by simp [Pointers.pad, total, refers]

theorem getElem?_pad : s.pad.ptrs[s.ptrs.length]? = some none := by
  simp [Pointers.pad]

theorem push_eq {p : Ptr} : s.push p = s.pad.put s.ptrs.length (some p) := by
  simp [Pointers.push, Pointers.pad, put]

end Places

end Pointers

end SupOS.Libcpp
