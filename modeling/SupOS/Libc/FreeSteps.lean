import SupOS.Libc.MallocSteps

/-! What `free` does to the blocks: the one that it is given is free from then on, and free blocks are merged,
the last one with the rest of the memory. -/

namespace SupOS.Libc.Malloc

open Lib Blocks

variable {B : Bounds} {s : State} {m : Bytes} {a k n p : Nat} {pf : Bool} {b : Block Nat}
  {l l₁ l₂ : List (Block Nat)}

/-- A free block without its boundary tag yet, in front of blocks that it need not be merged with. -/
structure Freed (m : Bytes) (a n : Nat) (pf : Bool) (l : List (Block Nat)) : Prop where
  pos : 0 < n
  aligned : n % 8 = 0
  header : load m a = headerOf n pf true
  behind : Chain m (a + 8 + n) true l
  closed : Closed l

/-- A block that is marked, with the header behind it, is merged with the next one if that is free. -/
theorem mergeNext_spec {m₀ : Bytes} (h0 : 0 < n) (hn : n % 8 = 0) (hhead : load m a = headerOf n pf true)
    (hc : Chain m₀ (a + 8 + n) false l) (hl : Coalesced l)
    (hm : ∀ y, a + 8 + n ≤ y →
      m y = store m₀ (a + 8 + n) ((load m₀ (a + 8 + n)).setPFree true) y)
    (hlt : a + 8 + n + span 8 l + 8 ≤ 2 ^ 64) :
    ∃ m' k l', mergeNext m a = .ok m' ∧ Freed m' a k pf l' ∧ k + span 8 l' = n + span 8 l ∧
      push 8 ⟨n, none⟩ l = push 8 ⟨k, none⟩ l' ∧
      (∀ p j, find 8 (a + 8 + n) l p = some j → a + 8 + k + 8 ≤ p) ∧
      ∀ y, y < a ∨ a + 8 ≤ y → m' y = m y := by
  obtain ⟨sz, f, hnext₀⟩ := hc.first
  have hnext : load m (a + 8 + n) = headerOf sz true f := by
    rw [load_congr fun y hy _ => hm y hy, load_store, hnext₀, headerOf_setPFree]
  unfold mergeNext
  rw [nextHeader_eq hhead hn (by omega) (by rw [hnext, headerOf_seemsValid]; rfl), ok_bind]
  by_cases hclosed : Closed l
  · have hchain := (hc.setPFree hclosed true).congr hm
    obtain ⟨sz', hused⟩ := hchain.first_of_closed hclosed
    rw [if_neg (by rw [hused, headerOf_free]; exact fun h => Bool.noConfusion h.2)]
    exact ⟨m, n, l, rfl, ⟨h0, hn, hhead, hchain, hclosed⟩, rfl, rfl, fun p j hp => le_of_find hp,
      fun _ _ => rfl⟩
  · obtain ⟨c, l, rfl, hfree⟩ := exists_of_not_closed hclosed
    obtain ⟨hs, hrest⟩ := chain_cons.mp hc
    rw [span_cons] at hlt
    have hsize := hs.aligned
    have hnext : load m (a + 8 + n) = headerOf c.size true true := by
      rw [load_congr fun y hy _ => hm y hy, load_store, hs.header, headerOf_setPFree, hfree]
    have hchain : Chain m (a + 8 + n + 8 + c.size) true l := by
      rw [← hfree]
      refine hrest.congr fun y hy => ?_
      rw [hm y (by omega), store_outside (by omega)]
    obtain ⟨sz', f', hnext'⟩ := hchain.first
    have hsum : u64 (n + c.size + 8) = n + c.size + 8 := u64_of_lt (by omega)
    have hend : a + 8 + (n + c.size + 8) = a + 8 + n + 8 + c.size := by omega
    rw [hnext, if_pos ⟨headerOf_size_ne hs.aligned hs.pos (by omega), headerOf_free⟩,
      nextHeader_eq hnext hsize (by omega) (by rw [hnext', headerOf_seemsValid]; rfl), ok_bind, hhead,
      headerOf_getSize hn (by omega), headerOf_getSize hsize (by omega), hsum,
      resize_eq hhead (by omega), ok_bind]
    generalize hm1 : store m a (headerOf (n + c.size + 8) pf true) = m₁
    have hhead1 : load m₁ a = headerOf (n + c.size + 8) pf true := by rw [← hm1, load_store]
    have hfar (y : Nat) (hy : y < a ∨ a + 8 ≤ y) : m₁ y = m y := by
      rw [← hm1, store_outside (by omega)]
    have hchain1 : Chain m₁ (a + 8 + (n + c.size + 8)) true l := by
      rw [hend]
      exact hchain.congr fun y hy => hfar y (by omega)
    obtain ⟨sz₁, f₁, hnext1⟩ := hchain1.first
    rw [nextHeader_eq hhead1 (by omega) (by omega) (by rw [hnext1, headerOf_seemsValid]; rfl), ok_bind,
      hend, decide_eq_true rfl, assert_true, ok_bind]
    have hmerged := hl.1 hfree
    refine ⟨m₁, n + c.size + 8, l, rfl, ⟨by omega, by omega, hhead1, hchain1, hmerged.2⟩, ?_, ?_,
      fun p j hp => ?_, hfar⟩
    · rw [span_cons]
      omega
    · rw [push_of_closed hmerged.1 hmerged.2, push_of_free rfl hfree, Nat.add_right_comm]
    · rw [find, Block.used_of_free hfree] at hp
      split at hp
      · cases hp
      · rw [hend]
        exact le_of_find hp

/-- A free block gets its boundary tag, after it is merged with the one in front of it if that is free. -/
theorem mergePrev_spec {start : Nat} (hrow : Row m start false l₁) (ha : a = start + span 8 l₁)
    (hfreed : Freed m a n (lastFree false l₁) l) (hcoal : Coalesced (l₁ ++ b :: l₂))
    (hlt : a + 8 + n + 8 ≤ 2 ^ 64) :
    ∃ m' l₀ k, mergePrev m a = .ok (m', start + span 8 l₀) ∧ Row m' start false l₀ ∧
      lastFree false l₀ = false ∧ Chain m' (start + span 8 l₀) false (⟨k, none⟩ :: l) ∧ span 8 l₀ + k = span 8 l₁ + n ∧
      l₁.foldr (push 8) (push 8 ⟨n, none⟩ l) = l₀ ++ push 8 ⟨k, none⟩ l ∧
      (∀ p j, find 8 start l₁ p = some j → p + j ≤ start + span 8 l₀) ∧
      ∀ y, y < start + span 8 l₀ ∨ a + 8 + n ≤ y → m' y = m y := by
  obtain ⟨h0, hn, hhead, hbehind, hclosed⟩ := hfreed
  obtain ⟨sz, f, hnext⟩ := hbehind.first
  unfold mergePrev
  rw [hhead, headerOf_prevFree]
  cases hlast : lastFree false l₁ with
  | false =>
    rw [hlast] at hhead
    rw [if_neg Bool.false_ne_true, getNextBoundaryTag_eq hhead hn (by omega), ok_bind]
    refine ⟨_, l₁, n, by rw [← ha]; rfl, hrow.congr fun y _ hy => store_outside (by omega), hlast, ?_, rfl,
      hcoal.foldr_push hlast _, fun p j hp => (hrow.find_bounds hp).2,
      fun y hy => store_outside (by omega)⟩
    rw [← ha]
    refine chain_cons.mpr ⟨stands_free h0 hn ?_ ?_, hbehind.congr fun y hy => store_outside (by omega)⟩
    · rw [load_store_other (by omega), hhead]
    · rw [load_store, load_store_other (by omega), hhead]
  | true =>
    obtain ⟨l₀, d, rfl, hd⟩ := exists_of_lastFree hlast
    rw [List.append_assoc] at hcoal
    obtain ⟨hrow₀, hs, -⟩ := row_append.mp hrow
    have hfront := hcoal.lastFree_front hd
    obtain ⟨e, he⟩ : ∃ e, e = start + span 8 l₀ := ⟨_, rfl⟩
    rw [hfront, ← he] at hs
    have hsize := hs.aligned
    have hpos := hs.pos
    obtain rfl : a = e + d.size + 8 := by
      rw [ha, span_append, span_cons, span_nil]
      omega
    rw [hlast] at hhead
    have hprev : load m e = headerOf d.size false true := hd ▸ hs.header
    have htag : load m (e + d.size) = headerOf d.size false true := (hs.tag hd).trans hprev
    have hback : u64 (e + d.size + 2 ^ 64 - d.size) = e := by
      unfold u64
      omega
    have hcomm : e + 8 + d.size = e + d.size + 8 := by omega
    have hsum : u64 (d.size + n + 8) = d.size + 8 + n := by
      rw [u64_of_lt (by omega)]
      omega
    have hend : e + 8 + (d.size + 8 + n) = e + d.size + 8 + 8 + n := by omega
    rw [if_pos rfl,
      nextHeader_eq hhead hn (by omega) (by rw [hnext, headerOf_seemsValid]; rfl), ok_bind,
      getPrevBoundaryTag_eq hhead (by omega) (by rw [htag, headerOf_seemsValid]), ok_bind, htag,
      headerOf_getSize hsize (by omega), hback]
    dsimp only
    rw [nextHeader_eq hprev hsize (by omega) (by rw [hcomm, hhead, headerOf_seemsValid]; rfl), ok_bind,
      hcomm, decide_eq_true rfl, assert_true, ok_bind, hprev, headerOf_getSize hsize (by omega),
      headerOf_getSize hn (by omega), hsum, resize_eq hprev (by omega), ok_bind]
    generalize hm1 : store m e (headerOf (d.size + 8 + n) false true) = m₁
    have hhead1 : load m₁ e = headerOf (d.size + 8 + n) false true := by rw [← hm1, load_store]
    have hfar (y : Nat) (hy : y < e ∨ e + 8 ≤ y) : m₁ y = m y := by
      rw [← hm1, store_outside (by omega)]
    have hnext1 : load m₁ (e + d.size + 8 + 8 + n) = headerOf sz true f := by
      rw [load_congr fun y hy _ => hfar y (by omega), hnext]
    rw [nextHeader_eq hhead1 (by omega) (by omega) (by rw [hend, hnext1, headerOf_seemsValid]; rfl),
      ok_bind, hend, decide_eq_true rfl, assert_true, ok_bind,
      getNextBoundaryTag_eq hhead1 (by omega) (by omega), ok_bind, hhead1]
    generalize hm2 : store m₁ (e + (d.size + 8 + n)) (headerOf (d.size + 8 + n) false true) = m₂
    have hfar2 (y : Nat) (hy : y < e ∨ e + (d.size + 8 + n) + 8 ≤ y) : m₂ y = m y := by
      rw [← hm2, store_outside (by omega), hfar y (by omega)]
    have hhead2 : load m₂ e = headerOf (d.size + 8 + n) false true := by
      rw [← hm2, load_store_other (by omega), hhead1]
    refine ⟨m₂, l₀, d.size + 8 + n, by rw [← he]; rfl, hrow₀.congr fun y _ hy => hfar2 y (by omega), hfront,
      ?_, ?_, ?_, ?_, fun y hy => hfar2 y (by omega)⟩
    · rw [← he]
      refine chain_cons.mpr ⟨stands_free (by omega) (by omega) hhead2 ?_, ?_⟩
      · rw [hhead2, ← hm2, load_store]
      · dsimp only
        rw [hend]
        exact hbehind.congr fun y hy => hfar2 y (by omega)
    · rw [span_append, span_cons, span_nil]
      omega
    · rw [List.foldr_append, List.foldr_cons, List.foldr_nil, push_push hd hclosed]
      exact hcoal.foldr_push hfront _
    · intro p j hp
      rw [find_append (by decide), find, Block.used_of_free hd, find, ite_self, Option.or_none] at hp
      exact (hrow₀.find_bounds hp).2

/-- The last block, when it is free, goes back to the memory behind the break. -/
theorem giveBack_spec (hc : Chain s.mem a false (⟨k, none⟩ :: l)) (hl : Closed l)
    (hbrk : s.Brk = a + 8 + k + span 8 l + 8) (hstart : B.start ≤ a) (hlimit : s.Brk ≤ B.limit) :
    ∃ s', giveBack B s a = .ok s' ∧ s'.firstHeader = s.firstHeader ∧
      Chain s'.mem a false (push 8 ⟨k, none⟩ l) ∧ s'.Brk = a + span 8 (push 8 ⟨k, none⟩ l) + 8 ∧
      s'.Brk ≤ B.limit ∧ ∀ y, y < a ∨ a + 8 ≤ y → s'.mem y = s.mem y := by
  have hlt := B.limit_lt
  obtain ⟨hs, hbehind⟩ := chain_cons.mp hc
  have hhead : load s.mem a = headerOf k false true := hs.header
  have hsize : k % 8 = 0 := hs.aligned
  obtain ⟨sz, f, hnext⟩ := hbehind.first
  unfold giveBack
  rw [nextHeader_eq hhead hsize (by omega) (by rw [hnext, headerOf_seemsValid]; rfl), ok_bind]
  cases l with
  | nil =>
    have hmark : { headerOf k false true with free := false, prevFree := false }.update =
        headerOf k false false := rfl
    have hend : { headerOf k false false with size := 0 } = headerOf 0 false false := rfl
    rw [span_nil] at hbrk
    have hsum : u64 (k + 8) = k + 8 := u64_of_lt (by omega)
    have hdown (m : Bytes) : sbrk B { s with mem := m } (u64 (2 ^ 64 - (k + 8))) =
        .ok ({ s with mem := m, Brk := s.Brk - (k + 8) }, s.Brk) :=
      sbrk_down (show s.Brk ≠ 0 by omega) (show B.start + (k + 8) ≤ s.Brk by omega) hlimit
    rw [chain_nil.mp hbehind, if_pos headerOf_zero_size, hhead, hmark]
    dsimp only
    rw [load_store, headerOf_getSize hsize (by omega), hsum, hdown, ok_bind]
    dsimp only
    rw [load_store, hend, push_nil rfl]
    refine ⟨_, rfl, rfl, chain_nil.mpr load_store, ?_, by dsimp only; omega, fun y hy => ?_⟩
    · rw [span_nil]
      dsimp only
      omega
    · dsimp only
      rw [store_outside (by omega), store_outside (by omega)]
  | cons c l =>
    have hsizec : (headerOf c.size true c.free).size ≠ 0 := by
      rw [span_cons] at hbrk
      exact headerOf_size_ne hbehind.1.1.aligned hbehind.1.1.pos (by omega)
    have hheadc : load s.mem (a + 8 + k) = headerOf c.size true c.free := hbehind.1.1.header
    rw [hheadc, if_neg hsizec, push_of_closed (List.cons_ne_nil _ _) hl]
    refine ⟨s, rfl, rfl, hc, ?_, hlimit, fun _ _ => rfl⟩
    rw [hbrk, span_cons (b := ⟨k, none⟩)]
    dsimp only
    omega

theorem ptrToHeader_eq (hlt : a + 8 < 2 ^ 64) (hv : (load m a).seemsValid = true) :
    ptrToHeader m (a + 8) = .ok a := by
  have hres : u64 (a + 8 + 2 ^ 64 - 8) = a := by
    unfold u64
    omega
  unfold ptrToHeader
  rw [hres]
  dsimp only
  rw [hv, assert_true, ok_bind]
  rfl

/-- `free` releases a block and merges what is free. -/
theorem free_spec (h : Holds B s (l₁ ++ b :: l₂)) (hb : b.free = false) :
    ∃ s', free B s (B.start + span 8 l₁ + 8) = .ok s' ∧
      Holds B s' (coalesce 8 (l₁ ++ ⟨b.size, none⟩ :: l₂)) ∧
      Kept s.mem s'.mem B.start (l₁ ++ ⟨b.size, none⟩ :: l₂) := by
  obtain ⟨a, ha⟩ : ∃ a, a = B.start + span 8 l₁ := ⟨_, rfl⟩
  have hlimit := h.limit
  have hlt := B.limit_lt
  have hbrk := h.brk
  rw [span_append, span_cons] at hbrk
  obtain ⟨hrow, hrest⟩ := chain_append.mp h.chain
  obtain ⟨hs, hbehind⟩ := chain_cons.mp hrest
  rw [← ha] at hs hbehind ⊢
  rw [hb] at hbehind
  have hhead : load s.mem a = headerOf b.size (lastFree false l₁) false := hb ▸ hs.header
  have hsize := hs.aligned
  obtain ⟨sz, f, hnext⟩ := hbehind.first
  have hcoal : Coalesced l₂ := (h.coalesced.of_append).2
  unfold free
  rw [if_neg (by omega), ptrToHeader_eq (by omega) (by rw [hhead, headerOf_seemsValid]), ok_bind, hhead,
    headerOf_seemsValid, assert_true, ok_bind, headerOf_free, Bool.not_false, assert_true, ok_bind,
    headerOf_setFree]
  generalize hm1 : store s.mem a (headerOf b.size (lastFree false l₁) true) = m₁
  have hhead1 : load m₁ a = headerOf b.size (lastFree false l₁) true := by rw [← hm1, load_store]
  have hfar1 (y : Nat) (hy : y < a ∨ a + 8 ≤ y) : m₁ y = s.mem y := by
    rw [← hm1, store_outside (by omega)]
  have hbehind1 := hbehind.congr fun y hy => hfar1 y (by omega)
  have hnext1 : load m₁ (a + 8 + b.size) = headerOf sz false f := by
    rw [load_congr fun y hy _ => hfar1 y (by omega), hnext]
  dsimp only
  rw [nextHeader_eq hhead1 hsize (by omega) (by rw [hnext1, headerOf_seemsValid]; rfl), ok_bind]
  generalize hm2 : store m₁ (a + 8 + b.size) ((load m₁ (a + 8 + b.size)).setPFree true) = m₂
  have hhead2 : load m₂ a = headerOf b.size (lastFree false l₁) true := by
    rw [← hm2, load_store_other (by omega), hhead1]
  -- merging on both sides, and the end of the heap
  obtain ⟨m₃, k, l, hnextMerged, hfreed, hspan, hpush, hfind, hfar3⟩ :=
    mergeNext_spec hs.pos hsize hhead2 hbehind1 hcoal (fun y _ => by rw [← hm2]) (by omega)
  have hfar3' (y : Nat) (hy : y < a ∨ a + 8 + b.size + 8 ≤ y) : m₃ y = s.mem y := by
    rw [hfar3 y (by omega), ← hm2, store_outside (by omega), hfar1 y (by omega)]
  have hrow3 := hrow.congr fun y _ hy => hfar3' y (.inl (ha ▸ hy))
  obtain ⟨m₄, l₀, j, hmerged, hrow₀, hlast, hchain, hspan', hfold, hbelow, hfar4⟩ :=
    mergePrev_spec hrow3 ha hfreed h.coalesced (by omega)
  obtain ⟨s', hgive, hfirst, hchain', hbrk', hlimit', hfar5⟩ :=
    giveBack_spec (s := { s with mem := m₄ }) hchain hfreed.closed (by dsimp only; omega) (by omega) hlimit
  have hrow' : coalesce 8 (l₁ ++ ⟨b.size, none⟩ :: l₂) = l₀ ++ push 8 ⟨j, none⟩ l := by
    rw [coalesce_append, hcoal.coalesce_eq, hpush, hfold]
  have hfar (y : Nat) (hy : y < B.start + span 8 l₀ ∨ B.start + span 8 l₀ + 8 ≤ y ∧ a + 8 + k ≤ y)
      (hy' : y < a ∨ a + 8 + b.size + 8 ≤ y) : s'.mem y = s.mem y :=
    (hfar5 y (by omega)).trans ((hfar4 y (by omega)).trans (hfar3' y hy'))
  rw [hnextMerged, ok_bind, hmerged, ok_bind]
  refine ⟨s', hgive, ⟨hfirst.trans h.first, ?_, coalesced_coalesce _, ?_, hlimit'⟩, ?_⟩
  · rw [hrow', chain_append, hlast]
    exact ⟨hrow₀.congr fun y _ hy => hfar5 y (.inl hy), hchain'⟩
  · rw [hrow', hbrk', span_append, ← Nat.add_assoc]
  · intro p n hp i hi
    rw [find_append (by decide), Option.or_eq_some_iff] at hp
    rcases hp with hp | ⟨-, hp⟩
    · have hle := hbelow p n hp
      have hlow := (hrow.find_bounds hp).2
      exact hfar _ (by omega) (by omega)
    · rw [find] at hp
      split at hp
      · cases hp
      · rw [← ha] at hp
        have hlow := le_of_find hp
        have hhigh := hfind p n hp
        dsimp only at hlow
        exact hfar _ (by omega) (by omega)

end SupOS.Libc.Malloc
