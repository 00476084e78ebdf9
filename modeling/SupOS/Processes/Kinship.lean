import SupOS.Processes.Tasks
import SupOS.Lib.Forest

/-! What holds of the tree of processes, of the threads, of the waits and of the free numbers, each
stated about the maps it depends on. -/

namespace SupOS

open Lib

/-- The part of a process that places it in the tree and in its group. -/
structure Kin where
  pid : Nat
  gid : Nat
  parent : Option Nat
  sons : Pointers

def Process.kin (pro : Process) : Kin := ⟨pro.pid, pro.gid, pro.parent, pro.sons⟩

namespace Tasks

@[simp] theorem put_eq_some_self {α : Type} {f : Nat → Option α} {i : Nat} {v : α} {w : α} :
    put f i (some v) i = some w ↔ v = w := by
  simp

/-- The parents of the processes. -/
def parentOf (kin : Nat → Option Kin) (p : Nat) : Option Nat := (kin p).bind Kin.parent

theorem parentOf_eq_some {kin : Nat → Option Kin} {p q : Nat} :
    parentOf kin p = some q ↔ ∃ k, kin p = some k ∧ k.parent = some q := by
  simp [parentOf, Option.bind_eq_some_iff]

/-- The tree of the processes, which are all in the group of init. -/
structure Family (kin : Nat → Option Kin) (processes : Nat → Option Nat)
    (groups : Nat → Option Pointers) : Prop where
  mapped : ∀ pid p, processes pid = some p ↔ ∃ k, kin p = some k ∧ k.pid = pid
  sons : ∀ p k, kin p = some k → ∀ q, q ∈ k.sons ↔ ∃ son, kin q = some son ∧ son.parent = some p
  init : ∃ i k, processes 1 = some i ∧ kin i = some k ∧ k.parent = none
  rooted : ∀ i p k, processes 1 = some i → kin p = some k → Rooted (parentOf kin) i p
  gid : ∀ p k, kin p = some k → k.gid = 1
  members : ∃ pros, groups 1 = some pros ∧ ∀ p k, kin p = some k → p ∈ pros

/-- The threads, where `M p t` says that `t` counts as a thread of the process `p`. -/
structure Crew (M : Nat → Nat → Prop) (threadAt : Nat → Option Thread) (threads : Nat → Option Nat)
    (kin : Nat → Option Kin) : Prop where
  owner : ∀ t th, threadAt t = some th → M th.process t ∧ kin th.process ≠ none
  listed : ∀ p t, M p t → ∃ th, threadAt t = some th ∧ th.process = p
  mapped : ∀ tid t, threads tid = some t ↔ ∃ th, threadAt t = some th ∧ th.tid = tid
  main : ∀ t th p k, threadAt t = some th → kin p = some k → th.tid = k.pid → th.process = p

/-- The waits, of which each is for the process of the thread. -/
structure Watch (threadAt : Nat → Option Thread) (waits : Waits Nat Nat) : Prop where
  inv : Protocol.Inv ⟨waits, fun t => (threadAt t).isSome⟩
  own : ∀ t, waits.waiting t ≠ ∅ →
    ∃ th c, threadAt t = some th ∧ waits.waiting t = {th.process} ∧ th.checker = some c

/-- The numbers that are marked free are those that no map has, except 0. -/
structure Unused (tids : Bitset) (threads processes : Nat → Option Nat)
    (groups : Nat → Option Pointers) : Prop where
  size : tids.size = 0x1000 * 8
  bit_zero : tids.bit 0 = false
  free : ∀ k, k ≠ 0 → k < 0x1000 * 8 →
    (tids.bit k = true ↔ threads k = none ∧ processes k = none ∧ groups k = none)
  none : ∀ k, k = 0 ∨ 0x1000 * 8 ≤ k → threads k = none ∧ processes k = none ∧ groups k = none

section

variable {kin kin' : Nat → Option Kin} {processes threads : Nat → Option Nat}
  {groups : Nat → Option Pointers} {M : Nat → Nat → Prop} {threadAt : Nat → Option Thread}
  {waits : Waits Nat Nat} {tids : Bitset} {p q t pid tid : Nat} {k : Kin} {th : Thread}

/-- The path of a process goes on. -/
theorem Family.parent (h : Family kin processes groups) (hk : kin p = some k)
    (hp : processes 1 ≠ some p) : ∃ q kq, k.parent = some q ∧ kin q = some kq := by
  obtain ⟨i, ki, hi, hki, hnone⟩ := h.init
  cases h.rooted i p k hi hk with
  | root => exact absurd hi hp
  | @step _ b hpb hb =>
    obtain ⟨k', hk', hparent⟩ := parentOf_eq_some.mp hpb
    obtain rfl : k' = k := Option.some.inj (hk'.symm.trans hk)
    cases hb with
    | root => exact ⟨i, ki, hparent, hki⟩
    | step hbc _ =>
      obtain ⟨kb, hkb, -⟩ := parentOf_eq_some.mp hbc
      exact ⟨b, kb, hparent, hkb⟩

theorem Family.parent_exists (h : Family kin processes groups) (hk : kin p = some k)
    (hq : k.parent = some q) : ∃ kq, kin q = some kq := by
  obtain ⟨i, ki, hi, hki, hnone⟩ := h.init
  obtain ⟨q', kq, hq', hkq⟩ := h.parent hk (fun hp => by
    obtain rfl : p = i := Option.some.inj (hp.symm.trans hi)
    obtain rfl : k = ki := Option.some.inj (hk.symm.trans hki)
    rw [hq] at hnone
    cases hnone)
  obtain rfl : q = q' := Option.some.inj (hq.symm.trans hq')
  exact ⟨kq, hkq⟩

theorem Family.acyclic (h : Family kin processes groups) (p : Nat) :
    ¬Relation.TransGen (ChildOf (parentOf kin)) p p := by
  intro hcycle
  obtain ⟨i, ki, hi, hki, hnone⟩ := h.init
  obtain ⟨q, hpq, -⟩ := Relation.TransGen.head'_iff.mp hcycle
  obtain ⟨k, hk, -⟩ := parentOf_eq_some.mp hpq
  exact (h.rooted i p k hi hk).acyclic (by simp [parentOf, hki, hnone]) hcycle

/-- A new child `p` of `q`. -/
theorem Family.grow (h : Family kin processes groups) {kq : Kin} {pros : Pointers}
    (hp : kin p = none) (hpid : processes pid = none) (hq : kin q = some kq)
    (hg : groups 1 = some pros) :
    Family (put (put kin p (some ⟨pid, 1, some q, .empty⟩)) q
      (some { kq with sons := kq.sons.insert p })) (put processes pid (some p))
      (put groups 1 (some (pros.insert p))) := by
  have hne : p ≠ q := by
    rintro rfl
    rw [hp] at hq
    cases hq
  set kin' := put (put kin p (some ⟨pid, 1, some q, .empty⟩)) q
    (some { kq with sons := kq.sons.insert p }) with hkin'
  have hnew : kin' p = some ⟨pid, 1, some q, .empty⟩ := by
    rw [hkin', put_of_ne _ _ hne, put_self]
  have hgrown : kin' q = some { kq with sons := kq.sons.insert p } := put_self _ _ _
  have hold : ∀ x, x ≠ p → x ≠ q → kin' x = kin x := by
    intro x hxp hxq
    rw [hkin', put_of_ne _ _ hxq, put_of_ne _ _ hxp]
  -- The records other than the sons of `q` are those of before.
  have hrec : ∀ x, x ≠ p → ∀ k', kin' x = some k' → ∃ k, kin x = some k ∧ k'.pid = k.pid ∧
      k'.gid = k.gid ∧ k'.parent = k.parent ∧ ∀ y, y ∈ k'.sons ↔ (x = q ∧ y = p) ∨ y ∈ k.sons := by
    intro x hxp k' hk'
    by_cases hxq : x = q
    · subst hxq
      rw [hgrown, Option.some.injEq] at hk'
      subst hk'
      exact ⟨kq, hq, rfl, rfl, rfl, fun y => by simp⟩
    · rw [hold x hxp hxq] at hk'
      exact ⟨k', hk', rfl, rfl, rfl, fun y => by simp [hxq]⟩
  have hrec' : ∀ x k, kin x = some k → ∃ k', kin' x = some k' ∧ k'.pid = k.pid ∧
      k'.parent = k.parent := by
    intro x k hk
    by_cases hxq : x = q
    · subst hxq
      obtain rfl : k = kq := Option.some.inj (hk.symm.trans hq)
      exact ⟨_, hgrown, rfl, rfl⟩
    · have hxp : x ≠ p := by
        rintro rfl
        rw [hp] at hk
        cases hk
      exact ⟨k, (hold x hxp hxq).trans hk, rfl, rfl⟩
  have hleaf : ∀ x, parentOf kin x ≠ some p := by
    intro x hx
    obtain ⟨k, hk, hpar⟩ := parentOf_eq_some.mp hx
    obtain ⟨kp, hkp⟩ := h.parent_exists hk hpar
    rw [hp] at hkp
    cases hkp
  have hparent : ∀ x, x ≠ p → parentOf kin' x = parentOf kin x := by
    intro x hx
    unfold parentOf
    by_cases hxq : x = q
    · subst hxq
      rw [hgrown, hq]
      rfl
    · rw [hold x hx hxq]
  obtain ⟨i, ki, hi, hki, hnone⟩ := h.init
  have hpid1 : (1 : Nat) ≠ pid := by
    rintro rfl
    rw [hi] at hpid
    cases hpid
  have hold1 : put processes pid (some p) 1 = processes 1 := put_of_ne _ _ hpid1
  refine ⟨fun pid' x => ?_, fun x k' hk' y => ?_, ?_, fun i' x k' hi' hk' => ?_,
    fun x k' hk' => ?_, ?_⟩
  · by_cases hxp : x = p
    · subst hxp
      rw [hnew]
      by_cases hpid' : pid' = pid
      · simp [hpid']
      · rw [put_of_ne _ _ hpid', h.mapped, hp]
        simp [Ne.symm hpid']
    · have hmap : (∃ k, kin' x = some k ∧ k.pid = pid') ↔ processes pid' = some x := by
        rw [h.mapped]
        constructor
        · rintro ⟨k', hk', rfl⟩
          obtain ⟨k, hk, hpid, -⟩ := hrec x hxp k' hk'
          exact ⟨k, hk, hpid.symm⟩
        · rintro ⟨k, hk, rfl⟩
          obtain ⟨k', hk', hpid, -⟩ := hrec' x k hk
          exact ⟨k', hk', hpid⟩
      rw [hmap]
      by_cases hpid' : pid' = pid
      · subst hpid'
        simp [hpid, Ne.symm hxp]
      · rw [put_of_ne _ _ hpid']
  · by_cases hxp : x = p
    · subst hxp
      rw [hnew, Option.some.injEq] at hk'
      subst hk'
      refine ⟨fun hy => absurd hy (OrderedSet.notMem_empty y), ?_⟩
      rintro ⟨son, hson, hpar⟩
      by_cases hyp : y = x
      · subst hyp
        rw [hnew, Option.some.injEq] at hson
        subst hson
        exact absurd (Option.some.inj hpar).symm hne
      · obtain ⟨k, hk, -, -, hpar', -⟩ := hrec y hyp son hson
        exact absurd (parentOf_eq_some.mpr ⟨k, hk, hpar'.symm.trans hpar⟩) (hleaf y)
    · obtain ⟨k, hk, -, -, -, hsons⟩ := hrec x hxp k' hk'
      rw [hsons, h.sons x k hk]
      by_cases hyp : y = p
      · subst hyp
        simp [hnew, hp, eq_comm]
      · simp only [hyp, and_false, false_or]
        constructor
        · rintro ⟨son, hson, hpar⟩
          obtain ⟨son', hson', -, hpar'⟩ := hrec' y son hson
          exact ⟨son', hson', hpar'.trans hpar⟩
        · rintro ⟨son', hson', hpar⟩
          obtain ⟨son, hson, -, -, hpar', -⟩ := hrec y hyp son' hson'
          exact ⟨son, hson, hpar'.symm.trans hpar⟩
  · obtain ⟨k', hk', -, hpar⟩ := hrec' i ki hki
    exact ⟨i, k', hold1.trans hi, hk', hpar.trans hnone⟩
  · rw [hold1] at hi'
    have hroot : ∀ y ky, kin y = some ky → y ≠ p → Rooted (parentOf kin') i' y := fun y ky hky hyp =>
      (h.rooted i' y ky hi' hky).grow hleaf hyp hparent
    by_cases hxp : x = p
    · subst hxp
      exact .step (parentOf_eq_some.mpr ⟨_, hnew, rfl⟩) (hroot q kq hq (Ne.symm hne))
    · obtain ⟨k, hk, -⟩ := hrec x hxp k' hk'
      exact hroot x k hk hxp
  · by_cases hxp : x = p
    · subst hxp
      rw [hnew, Option.some.injEq] at hk'
      subst hk'
      rfl
    · obtain ⟨k, hk, -, hgid, -⟩ := hrec x hxp k' hk'
      exact hgid.trans (h.gid x k hk)
  · refine ⟨pros.insert p, put_self _ _ _, fun x k' hk' => ?_⟩
    rw [OrderedSet.mem_insert]
    by_cases hxp : x = p
    · exact .inl hxp
    · obtain ⟨k, hk, -⟩ := hrec x hxp k' hk'
      obtain ⟨pros', hpros', hmem⟩ := h.members
      obtain rfl : pros' = pros := Option.some.inj (hpros'.symm.trans hg)
      exact .inr (hmem x k hk)

/-- The tree without the process `p`, whose children are now those of `i`. -/
structure Pruned (i p : Nat) (kin kin' : Nat → Option Kin) : Prop where
  gone : kin' p = none
  stays : ∀ x k, x ≠ p → kin x = some k → ∃ k', kin' x = some k'
  kept : ∀ x k', kin' x = some k' → ∃ k, kin x = some k ∧ k'.pid = k.pid ∧ k'.gid = k.gid ∧
    k'.parent = (if k.parent = some p then some i else k.parent) ∧
    ∀ y, y ∈ k'.sons ↔ y ≠ p ∧ (y ∈ k.sons ∨ x = i ∧ parentOf kin y = some p)

theorem Family.prune (h : Family kin processes groups) {i : Nat} {pros : Pointers}
    (hi : processes 1 = some i) (hk : kin p = some k) (hip : p ≠ i) (hg : groups 1 = some pros)
    (hprune : Pruned i p kin kin') :
    Family kin' (put processes k.pid none) (put groups 1 (some (pros.erase p))) := by
  obtain ⟨i', ki, hi', hki, hnone⟩ := h.init
  obtain rfl : i' = i := Option.some.inj (hi'.symm.trans hi)
  have hne : ∀ x k', kin' x = some k' → x ≠ p := by
    rintro x k' hk' rfl
    rw [hprune.gone] at hk'
    cases hk'
  have hpid1 : (1 : Nat) ≠ k.pid := fun heq =>
    hip (Option.some.inj (((h.mapped 1 p).mpr ⟨k, hk, heq.symm⟩).symm.trans hi))
  have hold1 : put processes k.pid none 1 = processes 1 := put_of_ne _ _ hpid1
  have hparent : ∀ x, x ≠ p → ∀ kx, kin x = some kx →
      parentOf kin' x = if kx.parent = some p then some i' else kx.parent := by
    intro x hx kx hkx
    obtain ⟨k', hk'⟩ := hprune.stays x kx hx hkx
    obtain ⟨kx', hkx', -, -, hpar, -⟩ := hprune.kept x k' hk'
    obtain rfl : kx' = kx := Option.some.inj (hkx'.symm.trans hkx)
    rw [parentOf, hk']
    exact hpar
  refine ⟨fun pid x => ?_, fun x k' hk' y => ?_, ?_, fun j x k' hj hk' => ?_,
    fun x k' hk' => ?_, ?_⟩
  · have hother : ∀ kx, kin x = some kx → x ≠ p → kx.pid ≠ k.pid := by
      intro kx hkx hx hpid
      have hx' := (h.mapped k.pid x).mpr ⟨kx, hkx, hpid⟩
      have hp' := (h.mapped k.pid p).mpr ⟨k, hk, rfl⟩
      exact hx (Option.some.inj (hx'.symm.trans hp'))
    constructor
    · intro hmap
      have hpid : pid ≠ k.pid := by
        rintro rfl
        rw [put_self] at hmap
        cases hmap
      rw [put_of_ne _ _ hpid, h.mapped] at hmap
      obtain ⟨kx, hkx, rfl⟩ := hmap
      have hx : x ≠ p := by
        rintro rfl
        exact hpid (congrArg Kin.pid (Option.some.inj (hkx.symm.trans hk)))
      obtain ⟨k', hk'⟩ := hprune.stays x kx hx hkx
      obtain ⟨kx', hkx', hpid', -⟩ := hprune.kept x k' hk'
      obtain rfl : kx' = kx := Option.some.inj (hkx'.symm.trans hkx)
      exact ⟨k', hk', hpid'⟩
    · rintro ⟨k', hk', rfl⟩
      obtain ⟨kx, hkx, hpid, -⟩ := hprune.kept x k' hk'
      rw [hpid, put_of_ne _ _ (hother kx hkx (hne x k' hk')), h.mapped]
      exact ⟨kx, hkx, rfl⟩
  · obtain ⟨kx, hkx, -, -, -, hsons⟩ := hprune.kept x k' hk'
    rw [hsons, h.sons x kx hkx]
    constructor
    · rintro ⟨hyp, hy⟩
      have hyk : ∃ ky, kin y = some ky ∧ (ky.parent = some x ∨ x = i' ∧ ky.parent = some p) := by
        rcases hy with ⟨ky, hky, hpar⟩ | ⟨hxi, hy⟩
        · exact ⟨ky, hky, .inl hpar⟩
        · obtain ⟨ky, hky, hpar⟩ := parentOf_eq_some.mp hy
          exact ⟨ky, hky, .inr ⟨hxi, hpar⟩⟩
      obtain ⟨ky, hky, hcase⟩ := hyk
      refine parentOf_eq_some.mp ?_
      rw [hparent y hyp ky hky]
      rcases hcase with hpar | ⟨rfl, hpar⟩
      · rw [hpar, if_neg (fun heq => hne x k' hk' (Option.some.inj heq))]
      · rw [if_pos hpar]
    · rintro ⟨son', hson', hpar⟩
      obtain ⟨ky, hky, -, -, hpar', -⟩ := hprune.kept y son' hson'
      refine ⟨hne y son' hson', ?_⟩
      rw [hpar] at hpar'
      split at hpar'
      · rename_i hyp
        exact .inr ⟨Option.some.inj hpar', parentOf_eq_some.mpr ⟨ky, hky, hyp⟩⟩
      · exact .inl ⟨ky, hky, hpar'.symm⟩
  · obtain ⟨k', hk'⟩ := hprune.stays i' ki hip.symm hki
    obtain ⟨ki', hki', -, -, hpar, -⟩ := hprune.kept i' k' hk'
    obtain rfl : ki' = ki := Option.some.inj (hki'.symm.trans hki)
    refine ⟨i', k', hold1.trans hi, hk', ?_⟩
    rw [hpar, hnone]
    rfl
  · rw [hold1, hi] at hj
    obtain rfl : i' = j := Option.some.inj hj
    obtain ⟨kx, hkx, -⟩ := hprune.kept x k' hk'
    refine (h.rooted i' x kx hi hkx).prune (hne x k' hk') hip (fun c hc hcp => ?_) fun c hc hcp => ?_
    · obtain ⟨kc, hkc, hpar⟩ := parentOf_eq_some.mp hcp
      rw [hparent c hc kc hkc, if_pos hpar]
    · cases hkc : kin c with
      | none =>
        cases hkc' : kin' c with
        | none => rw [parentOf, parentOf, hkc, hkc']
        | some k₁ =>
          obtain ⟨k₂, hk₂, -⟩ := hprune.kept c k₁ hkc'
          rw [hkc] at hk₂
          cases hk₂
      | some kc =>
        have hpar : kc.parent ≠ some p := fun heq =>
          hcp (parentOf_eq_some.mpr ⟨kc, hkc, heq⟩)
        rw [hparent c hc kc hkc, if_neg hpar, parentOf, hkc]
        rfl
  · obtain ⟨kx, hkx, -, hgid, -⟩ := hprune.kept x k' hk'
    exact hgid.trans (h.gid x kx hkx)
  · refine ⟨pros.erase p, put_self _ _ _, fun x k' hk' => ?_⟩
    obtain ⟨kx, hkx, -⟩ := hprune.kept x k' hk'
    obtain ⟨pros', hpros', hmem⟩ := h.members
    obtain rfl : pros' = pros := Option.some.inj (hpros'.symm.trans hg)
    exact OrderedSet.mem_erase.mpr ⟨hmem x kx hkx, hne x k' hk'⟩

/-- A new thread `t` of `p`, with a number that no other process has. -/
theorem Crew.add (h : Crew M threadAt threads kin) (ht : threadAt t = none)
    (htid : threads tid = none) (hp : kin p ≠ none)
    (hmain : ∀ q k, kin q = some k → tid = k.pid → p = q) :
    Crew (fun q u => M q u ∨ q = p ∧ u = t) (put threadAt t (some ⟨tid, p, none⟩))
      (put threads tid (some t)) kin := by
  have hold : ∀ u th, threadAt u = some th → u ≠ t := by
    rintro u th hu rfl
    rw [ht] at hu
    cases hu
  refine ⟨fun u th hu => ?_, fun q u hu => ?_, fun tid' u => ?_, fun u th q k hu hk htid' => ?_⟩
  · by_cases hut : u = t
    · subst hut
      rw [put_self, Option.some.injEq] at hu
      subst hu
      exact ⟨.inr ⟨rfl, rfl⟩, hp⟩
    · rw [put_of_ne _ _ hut] at hu
      exact ⟨.inl (h.owner u th hu).1, (h.owner u th hu).2⟩
  · rcases hu with hu | ⟨rfl, rfl⟩
    · obtain ⟨th, hth, hpro⟩ := h.listed q u hu
      exact ⟨th, by rw [put_of_ne _ _ (hold u th hth), hth], hpro⟩
    · exact ⟨_, put_self _ _ _, rfl⟩
  · by_cases hut : u = t
    · subst hut
      rw [put_self]
      by_cases htid' : tid' = tid
      · simp [htid']
      · rw [put_of_ne _ _ htid', h.mapped, ht]
        simp [Ne.symm htid']
    · rw [put_of_ne _ _ hut, ← h.mapped]
      by_cases htid' : tid' = tid
      · subst htid'
        simp [htid, Ne.symm hut]
      · rw [put_of_ne _ _ htid']
  · by_cases hut : u = t
    · subst hut
      rw [put_self, Option.some.injEq] at hu
      subst hu
      exact hmain q k hk htid'
    · rw [put_of_ne _ _ hut] at hu
      exact h.main u th q k hu hk htid'

theorem Crew.remove (h : Crew M threadAt threads kin) (ht : threadAt t = some th) :
    Crew (fun q u => M q u ∧ u ≠ t) (put threadAt t none) (put threads th.tid none) kin := by
  have hkeep : ∀ u th', put threadAt t none u = some th' ↔ u ≠ t ∧ threadAt u = some th' := by
    intro u th'
    by_cases hut : u = t
    · simp [hut]
    · rw [put_of_ne _ _ hut]
      simp [hut]
  have htid : ∀ u th', threadAt u = some th' → u ≠ t → th'.tid ≠ th.tid := by
    intro u th' hu hut heq
    have hu' := (h.mapped th.tid u).mpr ⟨th', hu, heq⟩
    have ht' := (h.mapped th.tid t).mpr ⟨th, ht, rfl⟩
    exact hut (Option.some.inj (hu'.symm.trans ht'))
  refine ⟨fun u th' hu => ?_, fun q u hu => ?_, fun tid' u => ?_, fun u th' q k hu => ?_⟩
  · obtain ⟨hut, hu⟩ := (hkeep u th').mp hu
    exact ⟨⟨(h.owner u th' hu).1, hut⟩, (h.owner u th' hu).2⟩
  · obtain ⟨th', hth', hpro⟩ := h.listed q u hu.1
    exact ⟨th', (hkeep u th').mpr ⟨hu.2, hth'⟩, hpro⟩
  · constructor
    · intro hmap
      have hne : tid' ≠ th.tid := by
        rintro rfl
        rw [put_self] at hmap
        cases hmap
      rw [put_of_ne _ _ hne, h.mapped] at hmap
      obtain ⟨th', hth', rfl⟩ := hmap
      refine ⟨th', (hkeep u th').mpr ⟨?_, hth'⟩, rfl⟩
      rintro rfl
      exact hne (congrArg Thread.tid (Option.some.inj (hth'.symm.trans ht)))
    · rintro ⟨th', hth', rfl⟩
      obtain ⟨hut, hth'⟩ := (hkeep u th').mp hth'
      rw [put_of_ne _ _ (htid u th' hth' hut), h.mapped]
      exact ⟨th', hth', rfl⟩
  · exact h.main u th' q k ((hkeep u th').mp hu).2

/-- Only the checker of a thread changes. -/
theorem Crew.check (h : Crew M threadAt threads kin) (ht : threadAt t = some th)
    (c : Option Checker) :
    Crew M (put threadAt t (some { th with checker := c })) threads kin := by
  have hsame : ∀ u th', put threadAt t (some { th with checker := c }) u = some th' →
      ∃ th'', threadAt u = some th'' ∧ th''.tid = th'.tid ∧ th''.process = th'.process := by
    intro u th' hu
    by_cases hut : u = t
    · subst hut
      rw [put_self, Option.some.injEq] at hu
      subst hu
      exact ⟨th, ht, rfl, rfl⟩
    · rw [put_of_ne _ _ hut] at hu
      exact ⟨th', hu, rfl, rfl⟩
  have hstays : ∀ u th'', threadAt u = some th'' →
      ∃ th', put threadAt t (some { th with checker := c }) u = some th' ∧ th'.tid = th''.tid ∧
        th'.process = th''.process := by
    intro u th'' hu
    by_cases hut : u = t
    · subst hut
      obtain rfl : th'' = th := Option.some.inj (hu.symm.trans ht)
      exact ⟨_, put_self _ _ _, rfl, rfl⟩
    · exact ⟨th'', (put_of_ne _ _ hut).trans hu, rfl, rfl⟩
  refine ⟨fun u th' hu => ?_, fun q u hu => ?_, fun tid' u => ?_, fun u th' q k hu hk htid => ?_⟩
  · obtain ⟨th'', hu'', -, hpro⟩ := hsame u th' hu
    rw [← hpro]
    exact h.owner u th'' hu''
  · obtain ⟨th'', hu'', hpro⟩ := h.listed q u hu
    obtain ⟨th', hu', -, hpro'⟩ := hstays u th'' hu''
    exact ⟨th', hu', hpro'.trans hpro⟩
  · rw [h.mapped]
    constructor
    · rintro ⟨th'', hu'', htid⟩
      obtain ⟨th', hu', htid', -⟩ := hstays u th'' hu''
      exact ⟨th', hu', htid'.trans htid⟩
    · rintro ⟨th', hu', htid⟩
      obtain ⟨th'', hu'', htid', -⟩ := hsame u th' hu'
      exact ⟨th'', hu'', htid'.trans htid⟩
  · obtain ⟨th'', hu'', htid', hpro⟩ := hsame u th' hu
    exact hpro.symm.trans (h.main u th'' q k hu'' hk (htid'.trans htid))

/-- Processes come with unused numbers and go without threads. -/
theorem Crew.rekin (h : Crew M threadAt threads kin)
    (hstays : ∀ x u, M x u → kin x ≠ none → kin' x ≠ none)
    (hpid : ∀ x k', kin' x = some k' →
      (∃ k, kin x = some k ∧ k.pid = k'.pid) ∨ threads k'.pid = none) :
    Crew M threadAt threads kin' := by
  refine ⟨fun u th' hu => ?_, h.listed, h.mapped, fun u th' q k' hu hk' htid => ?_⟩
  · obtain ⟨hM, hne⟩ := h.owner u th' hu
    exact ⟨hM, hstays _ u hM hne⟩
  · rcases hpid q k' hk' with ⟨k, hk, hpid⟩ | hnone
    · exact h.main u th' q k hu hk (htid.trans hpid.symm)
    · have hmap := (h.mapped th'.tid u).mpr ⟨th', hu, rfl⟩
      rw [htid, hnone] at hmap
      cases hmap

theorem Watch.add (h : Watch threadAt waits) (ht : threadAt t = none) :
    Watch (put threadAt t (some ⟨tid, p, none⟩)) { waits with
      waiting := fun u => if u = t then ∅ else waits.waiting u
      waited := fun u => if u = t then none else waits.waited u } := by
  refine ⟨(h.inv.build (t := t) (by simp [ht])).mono fun u hu => ?_, fun u hu => ?_⟩
  · by_cases hut : u = t
    · simp [hut]
    · simpa [Protocol.build, hut, put_of_ne] using hu
  · by_cases hut : u = t
    · simp [hut] at hu
    · simp only [if_neg hut] at hu ⊢
      rw [put_of_ne _ _ hut]
      exact h.own u hu

theorem Watch.remove (h : Watch threadAt waits) (hidle : waits.isIdle t = true) :
    Watch (put threadAt t none) waits := by
  refine ⟨(h.inv.delete (t := t) hidle).mono fun u hu => ?_, fun u hu => ?_⟩
  · simp only [Bool.and_eq_true, decide_eq_true_eq] at hu
    rw [put_of_ne _ _ hu.1]
    exact hu.2
  · have hut : u ≠ t := by
      rintro rfl
      exact hu (Protocol.isIdle_eq_true.mp hidle).2
    rw [put_of_ne _ _ hut]
    exact h.own u hu

theorem Watch.fresh (h : Watch threadAt waits)
    (hp : ∀ u th, threadAt u = some th → th.process ≠ p) :
    Watch threadAt { waits with
      waitings := fun w => if w = p then ∅ else waits.waitings w } := by
  refine ⟨h.inv.fresh fun u hu => ?_, h.own⟩
  obtain ⟨th, -, hth, hset, -⟩ := h.own u (Finset.ne_empty_of_mem hu)
  simp only [hset, Finset.mem_singleton] at hu
  exact hp u th hth hu.symm

theorem Watch.free (h : Watch threadAt waits) (q : Nat) : Watch threadAt (waits.free q) :=
  ⟨h.inv.free q, h.own⟩

theorem Watch.wait (h : Watch threadAt waits) (ht : threadAt t = some th) {c : Checker}
    {waits' : Waits Nat Nat} (hw : waits.wait t {th.process} = .ok waits') :
    Watch (put threadAt t (some { th with checker := some c })) waits' := by
  refine ⟨(h.inv.wait (by simp [ht]) hw).mono fun u hu => ?_, fun u hu => ?_⟩
  · by_cases hut : u = t
    · simp [hut]
    · rw [put_of_ne _ _ hut]
      exact hu
  · obtain ⟨-, -, rfl⟩ := Protocol.wait_eq_ok hw
    by_cases hut : u = t
    · subst hut
      exact ⟨_, c, put_self _ _ _, by simp [Waits.register], rfl⟩
    · rw [put_of_ne _ _ hut]
      simp only [Waits.register, if_neg hut] at hu ⊢
      exact h.own u hu

theorem Watch.accept (h : Watch threadAt waits) (hw : waits.waited t ≠ none) :
    Watch threadAt ((waits.clearWaited t).accept t) := by
  obtain ⟨v, hv⟩ := Option.ne_none_iff_exists'.mp hw
  obtain ⟨th, -, -, hset, -⟩ := h.own t (Finset.ne_empty_of_mem (h.inv.waited t v hv).2)
  refine ⟨h.inv.accept (h.inv.allFreed_of_singleton hset hw), fun u hu => ?_⟩
  by_cases hut : u = t
  · simp [Waits.accept, hut] at hu
  · simp only [Waits.accept, Waits.clearWaited, if_neg hut] at hu ⊢
    exact h.own u hu

theorem Watch.refuse (h : Watch threadAt waits) (ht : threadAt t = some th) :
    Watch threadAt ((waits.clearWaited t).refuse t) :=
  ⟨h.inv.refuse (by simp [ht]), h.own⟩

/-- One number is taken or given back. -/
theorem Unused.update {tids' : Bitset} {threads' processes' : Nat → Option Nat}
    {groups' : Nat → Option Pointers} {i : Nat} (h : Unused tids threads processes groups)
    (hi : i ≠ 0 ∧ i < 0x1000 * 8) (hsize : tids'.size = tids.size)
    (hbit : ∀ k, k ≠ i → tids'.bit k = tids.bit k)
    (hmaps : ∀ k, k ≠ i → ((threads' k = .none ∧ processes' k = .none ∧ groups' k = .none) ↔
      threads k = .none ∧ processes k = .none ∧ groups k = .none))
    (hnew : tids'.bit i = true ↔ threads' i = .none ∧ processes' i = .none ∧ groups' i = .none) :
    Unused tids' threads' processes' groups' := by
  refine ⟨hsize.trans h.size, ?_, fun k h0 hk => ?_, fun k hk => ?_⟩
  · rw [hbit 0 (Ne.symm hi.1)]
    exact h.bit_zero
  · by_cases hki : k = i
    · rw [hki]
      exact hnew
    · rw [hbit k hki, hmaps k hki]
      exact h.free k h0 hk
  · have hki : k ≠ i := by omega
    exact (hmaps k hki).mpr (h.none k hk)

/-- A number with an object is between the bounds. -/
theorem Unused.bounds (h : Unused tids threads processes groups) {i : Nat}
    (hi : ¬(threads i = .none ∧ processes i = .none ∧ groups i = .none)) :
    i ≠ 0 ∧ i < 0x1000 * 8 := by
  by_contra hout
  exact hi (h.none i (by omega))

end

end Tasks

end SupOS
