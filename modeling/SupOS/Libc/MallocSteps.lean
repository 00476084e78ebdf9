import SupOS.Libc.MallocChain

/-! What `malloc` and `free` do to the blocks: `malloc` places a block in the row, and `free` releases one and
merges what is free. -/

namespace SupOS.Libc.Malloc

open Lib Blocks

variable {B : Bounds} {s : State} {m : Bytes} {a k n sz x : Nat} {pf f init : Bool} {b : Block Nat}
  {l l₁ l₂ : List (Block Nat)}

/-! ### The helpers -/

theorem nextHeader_eq (h : load m a = headerOf n pf f) (hn : n % 8 = 0) (hlt : a + n + 8 < 2 ^ 64)
    (hv : (init || (load m (a + 8 + n)).seemsValid) = true) : nextHeader m a init = .ok (a + 8 + n) := by
  have hres : u64 (a + n + 8) = a + 8 + n := by
    rw [u64_of_lt hlt]
    omega
  unfold nextHeader
  rw [h, headerOf_seemsValid, assert_true, ok_bind, headerOf_getSize hn (by omega), hres]
  dsimp only
  rw [hv, assert_true, ok_bind]
  rfl

theorem getNextBoundaryTag_eq (h : load m a = headerOf n pf true) (hn : n % 8 = 0)
    (hlt : a + n < 2 ^ 64) : getNextBoundaryTag m a = .ok (a + n) := by
  unfold getNextBoundaryTag
  rw [h, headerOf_seemsValid, headerOf_free, Bool.and_self, assert_true, ok_bind,
    headerOf_getSize hn (by omega), u64_of_lt hlt]
  rfl

theorem getPrevBoundaryTag_eq (h : load m (a + 8) = headerOf n true f) (hlt : a + 8 < 2 ^ 64)
    (hv : (load m a).seemsValid = true) : getPrevBoundaryTag m (a + 8) = .ok a := by
  have hres : u64 (a + 8 + 2 ^ 64 - 8) = a := by
    unfold u64
    omega
  unfold getPrevBoundaryTag
  rw [h, headerOf_seemsValid, headerOf_prevFree, Bool.and_self, assert_true, ok_bind, hres]
  dsimp only
  rw [hv, assert_true, ok_bind]
  rfl

theorem resize_eq (h : load m a = headerOf n pf f) (hsz : sz % 8 = 0) :
    resize m a sz = .ok (store m a (headerOf sz pf f)) := by
  unfold resize
  rw [h, headerOf_setSize hsz]
  rfl

/-- The size of a header whose flags are not set yet. -/
theorem resize_new (hsz : sz % 8 = 0) :
    resize m a sz = .ok (store m a { load m a with size := BitVec.ofNat 61 (sz / 8) }) := by
  unfold resize MallocHeader.setSize
  rw [decide_eq_true hsz]
  rfl

theorem sbrk_eq (h0 : s.Brk ≠ 0) : sbrk B s n =
    brk B (u64 (s.Brk + n)) >>= fun _ => .ok ({ s with Brk := u64 (s.Brk + n) }, s.Brk) := by
  unfold sbrk
  rw [if_neg h0]
  dsimp only
  rw [decide_eq_true h0, assert_true, ok_bind]
  rfl

/-- `sbrk` of a size that does not come back into the heap. -/
theorem sbrk_spec (h0 : s.Brk ≠ 0) (hle : B.start ≤ s.Brk) (hlt : s.Brk - B.start + n < 2 ^ 64) :
    Ensures (sbrk B s n) (· = .outOfMemory)
      fun r => r = ({ s with Brk := s.Brk + n }, s.Brk) ∧ s.Brk + n ≤ B.limit := by
  rw [sbrk_eq h0]
  unfold brk
  have hlimit := B.limit_lt
  by_cases hfits : s.Brk + n < 2 ^ 64
  · rw [u64_of_lt hfits]
    split
    · rename_i hin
      exact ⟨rfl, hin.2⟩
    · rfl
  · have hwrap : ¬(B.start ≤ u64 (s.Brk + n) ∧ u64 (s.Brk + n) ≤ B.limit) := by
      unfold u64
      omega
    rw [if_neg hwrap]
    rfl

theorem sbrk_down (h0 : s.Brk ≠ 0) (hle : B.start + k ≤ s.Brk) (hlimit : s.Brk ≤ B.limit) :
    sbrk B s (u64 (2 ^ 64 - k)) = .ok ({ s with Brk := s.Brk - k }, s.Brk) := by
  have hlt := B.limit_lt
  have hdown : u64 (s.Brk + u64 (2 ^ 64 - k)) = s.Brk - k := by
    unfold u64
    omega
  rw [sbrk_eq h0, hdown, brk, if_pos (by omega), ok_bind]

/-! ### The branches of `malloc` -/

theorem extend_spec (hc : Chain s.mem a pf []) (hbrk : s.Brk = a + 8) (hstart : B.start ≤ a)
    (h0 : 0 < n) (hn : n % 8 = 0) (hx : x ≤ n) (hfits : s.Brk - B.start + (8 + n) < 2 ^ 64) :
    Ensures (extend B s a n) (· = .outOfMemory) fun r => r.2 = a + 8 ∧
      r.1.firstHeader = s.firstHeader ∧ r.1.Brk = a + 8 + n + 8 ∧ r.1.Brk ≤ B.limit ∧
      Chain r.1.mem a pf [⟨n, some x⟩] ∧ ∀ y < a, r.1.mem y = s.mem y := by
  have hlimit := B.limit_lt
  have hsize : u64 (8 + n) = 8 + n := u64_of_lt (by omega)
  unfold extend
  rw [hsize]
  refine (sbrk_spec (by omega) (by omega) (by omega)).bind fun r hr => ?_
  obtain ⟨rfl, hle⟩ := hr
  have hptr : headerToPtr a = s.Brk := by
    rw [headerToPtr, hbrk, u64_of_lt (by omega)]
  have hhead := chain_nil.mp hc
  dsimp only
  rw [hptr, decide_eq_true rfl, assert_true, ok_bind]
  rw [resize_eq hhead hn, ok_bind, load_store, headerOf_setFree,
    nextHeader_eq load_store hn (by omega) rfl, ok_bind]
  refine ⟨hbrk, rfl, by dsimp only; omega, hle, ?_, fun y hy => ?_⟩
  · refine chain_cons.mpr ⟨⟨h0, hn, fun j hj => ?_, ?_, fun hfree => ?_⟩, chain_nil.mpr load_store⟩
    · obtain rfl : x = j := Option.some.inj hj
      exact hx
    · rw [load_store_other (by omega), load_store]
      rfl
    · cases hfree
  · dsimp only
    rw [store_outside (by omega), store_outside (by omega), store_outside (by omega)]

/-- The block at `a` gets `n` bytes, and what is left of it becomes a free block. -/
theorem split_spec (hhead : load m a = headerOf k pf false) (hk : k % 8 = 0) (hn : n % 8 = 0)
    (hleft : n + 16 ≤ k) (hlt : a + 8 + k < 2 ^ 64) (hnext : load m (a + 8 + k) = headerOf sz true f) :
    ∃ m', split m a n = .ok m' ∧ load m' a = headerOf n pf false ∧
      load m' (a + 8 + n) = headerOf (k - n - 8) false true ∧
      load m' (a + k) = headerOf (k - n - 8) false true ∧
      ∀ y, y < a ∨ a + 8 + k ≤ y → m' y = m y := by
  obtain ⟨left, rfl⟩ : ∃ left, k = n + 8 + left := ⟨k - n - 8, by omega⟩
  have hrest : n + 8 + left - n - 8 = left := by omega
  rw [hrest]
  obtain ⟨nxt, hnxt⟩ : ∃ nxt, nxt = a + 8 + n := ⟨_, rfl⟩
  have hend : a + 8 + (n + 8 + left) = nxt + left + 8 := by omega
  have hbehind : nxt + 8 + left = nxt + left + 8 := by omega
  have htag : a + (n + 8 + left) = nxt + left := by omega
  rw [hend] at hnext hlt
  rw [htag, ← hnxt]
  unfold split
  rw [nextHeader_eq hhead hk (by omega) (by rw [hend, hnext, headerOf_seemsValid]; rfl), ok_bind,
    hhead, headerOf_getSize hk (by omega)]
  dsimp only
  rw [resize_eq hhead hn, ok_bind, nextHeader_eq load_store hn (by omega) rfl, ok_bind, hrest,
    resize_new (by omega), ok_bind, load_store, ← hnxt, hend]
  -- the headers of both blocks
  generalize hm1 : store (store (store m a (headerOf n pf false)) nxt _) nxt _ = m1
  have hnew : load m1 nxt = headerOf left false true := by
    rw [← hm1, load_store]
    rfl
  have hfar (y : Nat) (hy : y < a ∨ nxt + 8 ≤ y) : m1 y = m y := by
    rw [← hm1, store_outside (by omega), store_outside (by omega), store_outside (by omega)]
  have hold : load m1 (nxt + left + 8) = headerOf sz true f := by
    rw [load_congr fun y hy _ => hfar y (by omega), hnext]
  have hnext1 : nextHeader m1 nxt false = .ok (nxt + left + 8) := by
    rw [← hbehind]
    exact nextHeader_eq hnew (by omega) (by omega) (by rw [hbehind, hold, headerOf_seemsValid]; rfl)
  rw [hnext1, ok_bind, decide_eq_true rfl, assert_true, ok_bind,
    getNextBoundaryTag_eq hnew (by omega) (by omega), ok_bind, hnew]
  -- the boundary tag
  generalize hm2 : store m1 (nxt + left) (headerOf left false true) = m2
  have hnew2 : load m2 nxt = headerOf left false true := by
    rw [← hm2, load_store_other (by omega), hnew]
  have htag2 : load m2 (nxt + left) = headerOf left false true := by
    rw [← hm2, load_store]
  have hold2 : load m2 (nxt + left + 8) = headerOf sz true f := by
    rw [← hm2, load_store_other (by omega), hold]
  have hnext2 : nextHeader m2 nxt false = .ok (nxt + left + 8) := by
    rw [← hbehind]
    exact nextHeader_eq hnew2 (by omega) (by omega) (by rw [hbehind, hold2, headerOf_seemsValid]; rfl)
  have hprev2 : getPrevBoundaryTag m2 (nxt + left + 8) = .ok (nxt + left) :=
    getPrevBoundaryTag_eq hold2 (by omega) (by rw [htag2, headerOf_seemsValid])
  rw [getNextBoundaryTag_eq hnew2 (by omega) (by omega), ok_bind, hnext2, ok_bind, hprev2, ok_bind,
    decide_eq_true rfl, assert_true, ok_bind, hold2, headerOf_prevFree, assert_true, ok_bind]
  refine ⟨m2, rfl, ?_, hnew2, htag2, fun y hy => ?_⟩
  · rw [← hm2, load_store_other (by omega), ← hm1, load_store_other (by omega),
      load_store_other (by omega), load_store]
  · rw [← hm2, store_outside (by omega), hfar y (by omega)]

theorem stands_used (h0 : 0 < k) (hk : k % 8 = 0) (hx : x ≤ k) (h : load m a = headerOf k pf false) :
    Stands m a pf ⟨k, some x⟩ where
  pos := h0
  aligned := hk
  le := fun j hj => Option.some.inj hj ▸ hx
  header := h
  tag := fun hfree => absurd hfree (by simp)

theorem stands_free (h0 : 0 < k) (hk : k % 8 = 0) (h : load m a = headerOf k pf true)
    (htag : load m (a + k) = load m a) : Stands m a pf ⟨k, none⟩ where
  pos := h0
  aligned := hk
  le := fun j hj => absurd hj (by simp)
  header := h
  tag := fun _ => htag

/-- A free block is taken. -/
theorem take_spec (hs : Stands m a pf b) (hb : b.free = true) (hc : Chain m (a + 8 + b.size) true l)
    (hl : Closed l) (h0 : 0 < n) (hn : n % 8 = 0) (hx : x ≤ n) (hfit : n ≤ b.size)
    (hlt : a + 8 + b.size < 2 ^ 64) :
    ∃ m', take m a n = .ok m' ∧ Chain m' a pf (place 8 16 n x (b :: l)) ∧
      ∀ y, y < a ∨ a + 8 + b.size + 8 ≤ y → m' y = m y := by
  have haligned := hs.aligned
  have hhead : load m a = headerOf b.size pf true := hb ▸ hs.header
  obtain ⟨sz, f, hnext⟩ := hc.first
  unfold take
  rw [hhead, headerOf_setFree]
  dsimp only
  rw [load_store, headerOf_getSize haligned (by omega)]
  have hplace : place 8 16 n x (b :: l) = if 16 ≤ b.size - n then
      ⟨n, some x⟩ :: ⟨b.size - n - 8, none⟩ :: l else ⟨b.size, some x⟩ :: l := if_pos ⟨hb, hfit⟩
  rw [hplace]
  generalize hm1 : store m a (headerOf b.size pf false) = m1
  have hhead1 : load m1 a = headerOf b.size pf false := by rw [← hm1, load_store]
  have hfar1 (y : Nat) (hy : y < a ∨ a + 8 ≤ y) : m1 y = m y := by
    rw [← hm1, store_outside (by omega)]
  have hnext1 : load m1 (a + 8 + b.size) = headerOf sz true f := by
    rw [load_congr fun y hy _ => hfar1 y (by omega), hnext]
  by_cases hleft : 2 * 8 ≤ b.size - n
  · obtain ⟨m2, hsplit, hhead2, hnew2, htag2, hfar2⟩ :=
      split_spec hhead1 haligned hn (by omega) hlt hnext1
    rw [if_pos hleft, if_pos hleft, hsplit, ok_bind,
      nextHeader_eq hhead2 hn (by omega) (by rw [hnew2, headerOf_seemsValid]; rfl), ok_bind, hnew2,
      headerOf_setPFree]
    refine ⟨_, rfl, chain_cons.mpr ⟨stands_used h0 hn hx ?_, chain_cons.mpr
      ⟨stands_free (by omega) (by omega) load_store ?_, ?_⟩⟩, fun y hy => ?_⟩
    · rw [load_store_other (by omega), hhead2]
    · dsimp only
      rw [load_store, load_store_other (by omega),
        show a + 8 + n + (b.size - n - 8) = a + b.size by omega, htag2]
    · dsimp only
      rw [show a + 8 + n + 8 + (b.size - n - 8) = a + 8 + b.size by omega]
      refine hc.congr fun y hy => ?_
      rw [store_outside (by omega), hfar2 y (by omega), hfar1 y (by omega)]
    · rw [store_outside (by omega), hfar2 y (by omega), hfar1 y (by omega)]
  · rw [if_neg hleft, if_neg hleft, pure_bind,
      nextHeader_eq hhead1 haligned (by omega) (by rw [hnext1, headerOf_seemsValid]; rfl), ok_bind]
    have hc1 := (hc.congr fun y hy => hfar1 y (by omega)).setPFree hl false
    refine ⟨_, rfl, chain_cons.mpr ⟨stands_used hs.pos haligned (by omega) ?_, hc1⟩, fun y hy => ?_⟩
    · rw [load_store_other (by omega), hhead1]
    · rw [store_outside (by omega), hfar1 y (by omega)]

/-- The loop takes the first free block that is large enough, or extends the heap. -/
theorem search_spec (hc : Chain s.mem a pf l) (hl : Coalesced l) (hbrk : s.Brk = a + span 8 l + 8)
    (hstart : B.start ≤ a) (hlimit : s.Brk ≤ B.limit) (h0 : 0 < n) (hn : n % 8 = 0) (hx : x ≤ n)
    (hfits : s.Brk - B.start + (8 + n) < 2 ^ 64) {fuel : Nat} (hfuel : span 8 l < fuel) :
    Ensures (search B s n fuel a) (· = .outOfMemory) fun r => r.2 = spot 8 n a l ∧
      r.1.firstHeader = s.firstHeader ∧ r.1.Brk = a + span 8 (place 8 16 n x l) + 8 ∧
      r.1.Brk ≤ B.limit ∧ Chain r.1.mem a pf (place 8 16 n x l) ∧ (∀ y < a, r.1.mem y = s.mem y) ∧
      Kept s.mem r.1.mem a l := by
  have hlt := B.limit_lt
  induction l generalizing a pf fuel with
  | nil =>
    obtain ⟨fuel, rfl⟩ := Nat.exists_eq_succ_of_ne_zero (Nat.ne_zero_of_lt hfuel)
    rw [search, chain_nil.mp hc, if_pos headerOf_zero_size]
    refine (extend_spec hc hbrk hstart h0 hn hx hfits).mono (fun _ he => he) fun r hr => ?_
    obtain ⟨hptr, hfirst, hBrk, hle, hchain, hfar⟩ := hr
    refine ⟨hptr, hfirst, ?_, hle, hchain, hfar, fun p k hp => absurd hp (by simp [find])⟩
    rw [hBrk, place, span_cons, span_nil]
    dsimp only
    omega
  | cons b l ih =>
    obtain ⟨fuel, rfl⟩ := Nat.exists_eq_succ_of_ne_zero (Nat.ne_zero_of_lt hfuel)
    rw [span_cons] at hbrk hfuel
    obtain ⟨hs, hrest⟩ := chain_cons.mp hc
    have hne : (headerOf b.size pf b.free).size ≠ 0 := headerOf_size_ne hs.aligned hs.pos (by omega)
    rw [search, hs.header, if_neg hne, headerOf_free, headerOf_getSize hs.aligned (by omega), spot]
    by_cases hfit : b.free = true ∧ n ≤ b.size
    · obtain ⟨m', htake, hchain, hfar⟩ := take_spec hs hfit.1 (hfit.1 ▸ hrest) (hl.1 hfit.1).2 h0 hn hx
        hfit.2 (by omega)
      rw [if_pos hfit, if_pos hfit, htake, ok_bind, headerToPtr, u64_of_lt (by omega)]
      refine ⟨rfl, rfl, ?_, hlimit, hchain, fun y hy => hfar y (.inl hy), ?_⟩
      · rw [span_place_of_fit (by decide) hfit, span_cons]
        exact hbrk
      · exact .cons_of_free hfit.1 (.of_behind fun y hy => hfar y (by omega))
    · obtain ⟨sz, f, hnext⟩ := hrest.first
      rw [if_neg hfit, if_neg hfit, place, if_neg hfit, nextHeader_eq hs.header hs.aligned (by omega)
        (by rw [hnext, headerOf_seemsValid]; rfl), ok_bind]
      refine (ih hrest hl.2 (by omega) (by omega) (by omega)).mono (fun _ he => he) fun r hr => ?_
      obtain ⟨hptr, hfirst, hBrk, hle, hchain, hfar, hkept⟩ := hr
      refine ⟨hptr, hfirst, ?_, hle, chain_cons.mpr ⟨hs.congr fun y _ hy => hfar y hy, hchain⟩,
        fun y hy => hfar y (by omega), ?_⟩
      · rw [hBrk, span_cons]
        omega
      · exact hkept.cons hs fun y _ hy => hfar y hy

theorem align8_eq (h : x + 7 < 2 ^ 64) : align8 x = alignup x 8 := by
  rw [align8, u64_of_lt h]
  rfl

/-- `malloc` places a block in the row. -/
theorem malloc_spec (h : Holds B s l) (h0 : 0 < x)
    (hfits : s.Brk - B.start + (8 + alignup x 8) < 2 ^ 64) :
    Ensures (malloc B s x) (· = .outOfMemory) fun r => r.2 = spot 8 (alignup x 8) B.start l ∧
      Holds B r.1 (place 8 16 (alignup x 8) x l) ∧ Kept s.mem r.1.mem B.start l := by
  obtain ⟨sz, f, hfirst⟩ := h.chain.first
  have hpos := B.pos
  have hbrk := h.brk
  have hup : x ≤ alignup x 8 ∧ alignup x 8 % 8 = 0 := by
    unfold alignup
    omega
  unfold malloc
  rw [align8_eq (by omega)]
  dsimp only
  rw [h.first, hfirst, headerOf_seemsValid, assert_true, ok_bind]
  refine (search_spec h.chain h.coalesced hbrk (Nat.le_refl _) h.limit (by omega) hup.2 hup.1 hfits
    (by omega)).mono (fun _ he => he) fun r hr => ?_
  obtain ⟨hptr, hfirst', hbrk', hlimit, hchain, -, hkept⟩ := hr
  exact ⟨hptr, ⟨hfirst'.trans h.first, hchain, h.coalesced.place, hbrk', hlimit⟩, hkept⟩

end SupOS.Libc.Malloc
