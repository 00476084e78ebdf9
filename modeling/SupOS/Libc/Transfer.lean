import SupOS.Libc.Numbers
import Mathlib.Algebra.BigOperators.Intervals

/-! Transfers that take several calls of `read` or `write`: `fread` and `fwrite` of `libc/src/stdio.c`,
and `xsgetn` and `xsputn` of the file buffer in `libc++/fstream`. -/

namespace SupOS.Libc

open Lib

/-- What `read` or `write` does at each call: it fails, or transfers so many bytes, as long as it is asked
for as many. -/
abbrev Results := Nat → Option Nat

/-- A call of `read` or `write`: how far behind the start of the buffer it is to transfer how many bytes,
and how many it does transfer, if it does not fail. -/
structure Request where
  place : Nat
  asked : Nat
  count : Option Nat
  deriving DecidableEq, Repr

namespace Request

/-- The value that the call returns, a `size_t`. -/
def value (r : Request) : Nat := r.count.getD (2 ^ 64 - 1)

def transferred (r : Request) : Nat := r.count.getD 0

end Request

/-- The loop of `fread` and `fwrite`: its value of `res`, and its calls. -/
def transfer : Results → Nat → Nat → Nat → Nat → Except Fault (Nat × List Request)
  | _, 0, _, _, _ => .error .diverges
  | results, fuel + 1, place, res, left =>
    if left > 0 then do
      let request : Request := ⟨place, left, (results 0).map (min left)⟩
      let cur := request.value
      if cur ≠ 0 then do
        let r ← transfer (fun call => results (call + 1)) fuel (u64 (place + cur)) (u64 (res + cur))
          (u64 (left + 2 ^ 64 - cur))
        return (r.1, request :: r.2)
      else return (res, [request])
    else return (res, [])

/-- `fread` and `fwrite`, with the calls that they make. -/
def transferItems (results : Results) (size count fuel : Nat) : Except Fault (Nat × List Request) := do
  let r ← transfer results fuel 0 0 (u64 (size * count))
  let (items, _) ← divide r.1 size
  return (items, r.2)

def fread (read : Results) (size count fuel : Nat) : Except Fault (Nat × List Request) :=
  transferItems read size count fuel

def fwrite (write : Results) (size count fuel : Nat) : Except Fault (Nat × List Request) :=
  transferItems write size count fuel

/-- The loop of `xsgetn` and `xsputn` with what is left of the `n` bytes, an `int`. -/
def transferBytes (n : Nat) : Results → Nat → Nat → Int → Except Fault (Nat × List Request)
  | _, 0, _, _ => .error .diverges
  | results, fuel + 1, place, left =>
    if left > 0 then do
      let request : Request := ⟨place, left.toNat, (results 0).map (min left.toNat)⟩
      let val := toInt request.value
      if val = 0 then return (toUInt (n - left), [request])
      else do
        let r ← transferBytes n (fun call => results (call + 1)) fuel ((place + val) % 2 ^ 64).toNat
          (toInt (left - val))
        return (r.1, request :: r.2)
    else return (n, [])

namespace Filebuf

/-- `xsgetn` for characters of one byte. -/
def xsgetn (read : Results) (n fuel : Nat) : Except Fault (Nat × List Request) :=
  transferBytes n read fuel 0 (toInt n)

def xsputn (write : Results) (n fuel : Nat) : Except Fault (Nat × List Request) :=
  transferBytes n write fuel 0 (toInt n)

end Filebuf

/-! ### What a transfer is for -/

/-- When `done` bytes have been transferred, each call goes on behind them, and asks for no more than is
left of the request. -/
def InOrder (requested : Nat) : Nat → List Request → Prop
  | _, [] => True
  | done, r :: rs =>
    r.place = done ∧ done + r.asked ≤ requested ∧ InOrder requested (done + r.transferred) rs

/-- The number of bytes that the calls have transferred. -/
def total (requests : List Request) : Nat := (requests.map Request.transferred).sum

/-- The function ends after some rounds, asks for what is requested and no more, and returns the number
of complete items that are transferred. -/
def Transfers (run : Nat → Except Fault (Nat × List Request)) (requested size : Nat) : Prop :=
  ∃ fuel items requests, run fuel = .ok (items, requests) ∧ InOrder requested 0 requests ∧
    items = total requests / size

/-- No call fails before one transfers nothing, or before as many bytes are transferred as are asked
for. -/
def Undisturbed (results : Results) (bytes : Nat) : Prop :=
  ∀ call, results call = none →
    (∃ c < call, results c = some 0) ∨ bytes ≤ ∑ c ∈ Finset.range call, (results c).getD 0

namespace Undisturbed

variable {results : Results} {bytes k : Nat}

theorem zero (results : Results) : Undisturbed results 0 := fun _ _ => .inr (Nat.zero_le _)

theorem of_end (h : results 0 = some 0) (bytes : Nat) : Undisturbed results bytes := by
  intro call hcall
  cases call with
  | zero => exact absurd (h.symm.trans hcall) (Option.some_ne_none 0)
  | succ call => exact .inl ⟨0, Nat.succ_pos call, h⟩

theorem not_of_failure (h : results 0 = none) (hbytes : 0 < bytes) : ¬Undisturbed results bytes := by
  intro hund
  rcases hund 0 h with ⟨c, hc, -⟩ | hle
  · exact absurd hc (Nat.not_lt_zero c)
  · rw [Finset.sum_range_zero] at hle
    omega

/-- The calls after the first one are to transfer what is left. -/
theorem succ_iff (h : results 0 = some k) (hk : k ≠ 0) :
    Undisturbed results bytes ↔ Undisturbed (fun call => results (call + 1)) (bytes - k) := by
  have hsum (call : Nat) : bytes ≤ ∑ c ∈ Finset.range (call + 1), (results c).getD 0 ↔
      bytes - k ≤ ∑ c ∈ Finset.range call, (results (c + 1)).getD 0 := by
    rw [Finset.sum_range_succ', h, Option.getD_some]
    omega
  constructor
  · intro hund call hcall
    refine (hund (call + 1) hcall).imp ?_ (hsum call).mp
    rintro ⟨c, hc, hzero⟩
    cases c with
    | zero => exact absurd (Option.some.inj (h.symm.trans hzero)) hk
    | succ c => exact ⟨c, Nat.lt_of_succ_lt_succ hc, hzero⟩
  · intro hund call hcall
    cases call with
    | zero => exact absurd (h.symm.trans hcall) (Option.some_ne_none k)
    | succ call =>
      refine (hund call hcall).imp ?_ (hsum call).mpr
      rintro ⟨c, hc, hzero⟩
      exact ⟨c + 1, Nat.succ_lt_succ hc, hzero⟩

end Undisturbed

/-! ### `fread` and `fwrite` -/

variable {results : Results} {fuel done place res left requested size count n : Nat} {rs : List Request}

theorem total_cons (r : Request) (rs : List Request) : total (r :: rs) = r.transferred + total rs := by
  rw [total, List.map_cons, List.sum_cons, total]

/-! The rounds of the loop: the last one, and those with a call. -/

theorem transfer_done (results : Results) (fuel place res : Nat) :
    transfer results (fuel + 1) place res 0 = .ok (res, []) := rfl

theorem transfer_end (h : results 0 = some 0) (hleft : 0 < left) :
    transfer results (fuel + 1) place res left = .ok (res, [⟨place, left, some 0⟩]) := by
  rw [transfer, if_pos hleft, h, Option.map_some, Nat.min_zero]
  rfl

theorem transfer_failure (h : results 0 = none) (hleft : 0 < left) :
    transfer results (fuel + 1) place res left = (do
      let r ← transfer (fun call => results (call + 1)) fuel (u64 (place + (2 ^ 64 - 1)))
        (u64 (res + (2 ^ 64 - 1))) (u64 (left + 2 ^ 64 - (2 ^ 64 - 1)))
      return (r.1, ⟨place, left, none⟩ :: r.2)) := by
  have hvalue : (⟨place, left, none⟩ : Request).value = 2 ^ 64 - 1 := rfl
  rw [transfer, if_pos hleft, h, Option.map_none]
  dsimp only
  rw [hvalue, if_pos (by decide)]

theorem transfer_some (h : results 0 = some k) (hk : k ≠ 0) (hleft : 0 < left) (hlt : left < 2 ^ 64) :
    transfer results (fuel + 1) place res left = (do
      let r ← transfer (fun call => results (call + 1)) fuel (u64 (place + min left k)) (u64 (res + min left k))
        (left - k)
      return (r.1, ⟨place, left, some (min left k)⟩ :: r.2)) := by
  have hvalue : (⟨place, left, some (min left k)⟩ : Request).value = min left k := rfl
  have hrest : u64 (left + 2 ^ 64 - min left k) = left - k := by
    unfold u64
    omega
  rw [transfer, if_pos hleft, h, Option.map_some]
  dsimp only
  rw [hvalue, if_pos (by omega), hrest]

/-- Without a failure the loop ends, and `res` counts what is transferred. -/
theorem transfer_ends (hund : Undisturbed results left) (hfuel : left < fuel) (hlt : done + left < 2 ^ 64)
    (hreq : done + left ≤ requested) :
    ∃ rs, transfer results fuel done done left = .ok (done + total rs, rs) ∧ InOrder requested done rs := by
  induction fuel generalizing results done left with
  | zero => exact absurd hfuel (Nat.not_lt_zero _)
  | succ fuel ih =>
    rcases Nat.eq_zero_or_pos left with rfl | hleft
    · exact ⟨[], transfer_done results fuel done done, trivial⟩
    cases hcount : results 0 with
    | none => exact absurd hund (Undisturbed.not_of_failure hcount hleft)
    | some k =>
      by_cases hk : k = 0
      · subst hk
        exact ⟨[⟨done, left, some 0⟩], transfer_end hcount hleft, rfl, hreq, trivial⟩
      · obtain ⟨rs, hrs, hin⟩ := ih ((Undisturbed.succ_iff hcount hk).mp hund) (by omega)
          (show done + min left k + (left - k) < 2 ^ 64 by omega) (by omega)
        refine ⟨⟨done, left, some (min left k)⟩ :: rs, ?_, rfl, hreq, hin⟩
        rw [transfer_some hcount hk hleft (by omega), u64_of_lt (by omega), hrs, total_cons, Nat.add_assoc]
        rfl

/-- A loop that has something to do makes a call where it is. -/
theorem transfer_place (h : transfer results fuel place res left = .ok (n, rs)) (hleft : 0 < left) :
    ∃ r rs', rs = r :: rs' ∧ r.place = place := by
  cases fuel with
  | zero => cases h
  | succ fuel =>
    rw [transfer, if_pos hleft] at h
    dsimp only at h
    split at h
    · obtain ⟨r, -, h⟩ := bind_eq_ok.mp h
      obtain ⟨-, rfl⟩ := Prod.mk.inj (Except.ok.inj h)
      exact ⟨_, _, rfl, rfl⟩
    · obtain ⟨-, rfl⟩ := Prod.mk.inj (Except.ok.inj h)
      exact ⟨_, _, rfl, rfl⟩

/-- After a failure the loop goes on one byte too early, or stops with a count that is none. -/
theorem transfer_disturbed (hund : ¬Undisturbed results left) (hlt : done + left < 2 ^ 64)
    (h : transfer results fuel done done left = .ok (n, rs)) :
    ¬InOrder requested done rs ∨ n = 2 ^ 64 - 1 ∧ done + total rs = 0 := by
  induction fuel generalizing results done left rs with
  | zero => cases h
  | succ fuel ih =>
    have hleft : 0 < left := Nat.pos_of_ne_zero fun h => hund (h ▸ .zero _)
    cases hcount : results 0 with
    | none =>
      rw [transfer_failure hcount hleft] at h
      obtain ⟨r, hr, h⟩ := bind_eq_ok.mp h
      obtain ⟨hn, rfl⟩ := Prod.mk.inj (Except.ok.inj h)
      by_cases hlast : left + 1 < 2 ^ 64
      · refine .inl fun hin => ?_
        obtain ⟨r', rs', hrs, hplace⟩ := transfer_place hr (by unfold u64; omega)
        rw [hrs] at hin
        have hnext : r'.place = done := hin.2.2.1
        rw [hplace] at hnext
        unfold u64 at hnext
        omega
      · obtain rfl : done = 0 := by omega
        have hzero : u64 (left + 2 ^ 64 - (2 ^ 64 - 1)) = 0 := by
          unfold u64
          omega
        rw [hzero] at hr
        cases fuel with
        | zero => cases hr
        | succ fuel =>
          rw [transfer_done] at hr
          obtain rfl := Except.ok.inj hr
          exact .inr ⟨hn.symm, rfl⟩
    | some k =>
      have hk : k ≠ 0 := fun hk => hund (.of_end (hk ▸ hcount) left)
      rw [transfer_some hcount hk hleft (by omega), u64_of_lt (by omega)] at h
      obtain ⟨r, hr, h⟩ := bind_eq_ok.mp h
      obtain ⟨hn, rfl⟩ := Prod.mk.inj (Except.ok.inj h)
      have hund' := fun hund' => hund ((Undisturbed.succ_iff hcount hk).mpr hund')
      have hlt' : done + min left k + (left - k) < 2 ^ 64 := by omega
      rcases ih hund' hlt' (hr.trans (congrArg (fun n => Except.ok (n, r.2)) hn)) with hout | ⟨hmax, hsum⟩
      · exact .inl fun hin => hout hin.2.2
      · omega

theorem transferItems_iff (hsize : size < 2 ^ 64) :
    Transfers (transferItems results size count) (size * count) size ↔
      size ≠ 0 ∧ Undisturbed results (u64 (size * count)) := by
  have hlt : 0 + u64 (size * count) < 2 ^ 64 := by
    unfold u64
    omega
  constructor
  · rintro ⟨fuel, items, requests, hrun, hin, hitems⟩
    obtain ⟨r, hr, hrun⟩ := bind_eq_ok.mp hrun
    obtain ⟨q, hdivide, hrun⟩ := bind_eq_ok.mp hrun
    obtain ⟨rfl, rfl⟩ := Prod.mk.inj (Except.ok.inj hrun)
    have hzero : size ≠ 0 := fun h => by
      rw [divide, if_pos h] at hdivide
      cases hdivide
    refine ⟨hzero, ?_⟩
    by_contra hund
    rw [divide_eq hzero] at hdivide
    obtain rfl := Except.ok.inj hdivide
    rcases transfer_disturbed hund hlt hr with hout | ⟨hmax, hsum⟩
    · exact hout hin
    · have hpos : 0 < r.1 / size := Nat.div_pos (by omega) (Nat.pos_of_ne_zero hzero)
      rw [show total r.2 = 0 by omega, Nat.zero_div] at hitems
      dsimp only at hitems
      omega
  · rintro ⟨hzero, hund⟩
    have hreq : 0 + u64 (size * count) ≤ size * count := by
      rw [Nat.zero_add]
      exact Nat.mod_le _ _
    obtain ⟨rs, hrs, hin⟩ := transfer_ends hund (Nat.lt_succ_self _) hlt hreq
    refine ⟨u64 (size * count) + 1, total rs / size, rs, ?_, hin, rfl⟩
    rw [transferItems, hrs, ok_bind, divide_eq hzero, Nat.zero_add]
    rfl

/-! ### `xsgetn` and `xsputn` -/

theorem transferBytes_done (n : Nat) (results : Results) (fuel place : Nat) {val : Int} (hval : ¬val > 0) :
    transferBytes n results (fuel + 1) place val = .ok (n, []) := by
  rw [transferBytes, if_neg hval]
  rfl

theorem transferBytes_end (h : results 0 = some 0) (hleft : 0 < left) (hsum : done + left = n)
    (hn : n < 2 ^ 31) :
    transferBytes n results (fuel + 1) done left = .ok (done, [⟨done, left, some 0⟩]) := by
  have hret : toUInt ((n : Int) - left) = done := by
    unfold toUInt
    omega
  have hvalue : toInt (⟨done, left, some 0⟩ : Request).value = 0 := by
    show toInt 0 = 0
    decide
  rw [transferBytes, if_pos (by omega), Int.toNat_natCast, h, Option.map_some, Nat.min_zero]
  dsimp only
  rw [hvalue, if_pos rfl, hret]
  rfl

theorem transferBytes_failure (h : results 0 = none) (hleft : 0 < left) :
    transferBytes n results (fuel + 1) place left = (do
      let r ← transferBytes n (fun call => results (call + 1)) fuel (((place : Int) + -1) % 2 ^ 64).toNat
        (toInt (left - -1))
      return (r.1, ⟨place, left, none⟩ :: r.2)) := by
  have hvalue : toInt (⟨place, left, none⟩ : Request).value = -1 := by
    show toInt ((2 ^ 64 - 1 : Nat) : Int) = -1
    decide
  rw [transferBytes, if_pos (by omega), Int.toNat_natCast, h, Option.map_none]
  dsimp only
  rw [hvalue, if_neg (by decide)]

theorem transferBytes_some (h : results 0 = some k) (hk : k ≠ 0) (hleft : 0 < left) (hsum : done + left = n)
    (hn : n < 2 ^ 31) :
    transferBytes n results (fuel + 1) done left = (do
      let r ← transferBytes n (fun call => results (call + 1)) fuel (done + min left k) (left - k : Nat)
      return (r.1, ⟨done, left, some (min left k)⟩ :: r.2)) := by
  have hvalue : toInt (⟨done, left, some (min left k)⟩ : Request).value = (min left k : Nat) :=
    toInt_of_bounds (n := (min left k : Nat)) (by omega) (by omega)
  have hplace : (((done : Int) + (min left k : Nat)) % 2 ^ 64).toNat = done + min left k := by omega
  have hrest : toInt ((left : Int) - (min left k : Nat)) = (left - k : Nat) := by
    rw [toInt_of_bounds (by omega) (by omega)]
    omega
  rw [transferBytes, if_pos (by omega), Int.toNat_natCast, h, Option.map_some]
  dsimp only
  rw [hvalue, if_neg (by omega), hplace, hrest]

theorem transferBytes_ends (hund : Undisturbed results left) (hfuel : left < fuel) (hsum : done + left = n)
    (hn : n < 2 ^ 31) :
    ∃ rs, transferBytes n results fuel done left = .ok (done + total rs, rs) ∧ InOrder n done rs := by
  induction fuel generalizing results done left with
  | zero => exact absurd hfuel (Nat.not_lt_zero _)
  | succ fuel ih =>
    have hreq : done + left ≤ n := Nat.le_of_eq hsum
    rcases Nat.eq_zero_or_pos left with rfl | hleft
    · obtain rfl : done = n := hsum
      exact ⟨[], transferBytes_done done results fuel done (by decide), trivial⟩
    cases hcount : results 0 with
    | none => exact absurd hund (Undisturbed.not_of_failure hcount hleft)
    | some k =>
      by_cases hk : k = 0
      · subst hk
        exact ⟨[⟨done, left, some 0⟩], transferBytes_end hcount hleft hsum hn, rfl, hreq, trivial⟩
      · obtain ⟨rs, hrs, hin⟩ := ih ((Undisturbed.succ_iff hcount hk).mp hund) (by omega)
          (show done + min left k + (left - k) = n by omega)
        refine ⟨⟨done, left, some (min left k)⟩ :: rs, ?_, rfl, hreq, hin⟩
        rw [transferBytes_some hcount hk hleft hsum hn, hrs, total_cons, Nat.add_assoc]
        rfl

theorem transferBytes_place {val : Int} {m : Nat} (h : transferBytes n results fuel place val = .ok (m, rs))
    (hval : 0 < val) : ∃ r rs', rs = r :: rs' ∧ r.place = place := by
  cases fuel with
  | zero => cases h
  | succ fuel =>
    rw [transferBytes, if_pos hval] at h
    dsimp only at h
    split at h
    · obtain ⟨-, rfl⟩ := Prod.mk.inj (Except.ok.inj h)
      exact ⟨_, _, rfl, rfl⟩
    · obtain ⟨r, -, h⟩ := bind_eq_ok.mp h
      obtain ⟨-, rfl⟩ := Prod.mk.inj (Except.ok.inj h)
      exact ⟨_, _, rfl, rfl⟩

theorem transferBytes_disturbed {m : Nat} (hund : ¬Undisturbed results left) (hsum : done + left = n)
    (hn : n < 2 ^ 31) (h : transferBytes n results fuel done left = .ok (m, rs)) :
    ¬InOrder n done rs ∨ m ≠ done + total rs := by
  induction fuel generalizing results done left rs with
  | zero => cases h
  | succ fuel ih =>
    have hleft : 0 < left := Nat.pos_of_ne_zero fun h => hund (h ▸ .zero _)
    cases hcount : results 0 with
    | none =>
      rw [transferBytes_failure hcount hleft] at h
      obtain ⟨r, hr, h⟩ := bind_eq_ok.mp h
      obtain ⟨hm, rfl⟩ := Prod.mk.inj (Except.ok.inj h)
      by_cases hlast : left + 1 < 2 ^ 31
      · refine .inl fun hin => ?_
        rw [toInt_of_bounds (by omega) (by omega)] at hr
        obtain ⟨r', rs', hrs, hplace⟩ := transferBytes_place hr (by omega)
        rw [hrs] at hin
        have hnext : r'.place = done := hin.2.2.1
        omega
      · have hleast : toInt ((left : Int) - -1) = -2 ^ 31 := by
          rw [show (left : Int) - -1 = 2 ^ 31 by omega]
          decide
        rw [hleast] at hr
        cases fuel with
        | zero => cases hr
        | succ fuel =>
          rw [transferBytes_done n _ fuel _ (by decide)] at hr
          obtain rfl := Except.ok.inj hr
          refine .inr ?_
          rw [total_cons, ← hm]
          show n ≠ done + (0 + 0)
          omega
    | some k =>
      have hk : k ≠ 0 := fun hk => hund (.of_end (hk ▸ hcount) left)
      rw [transferBytes_some hcount hk hleft hsum hn] at h
      obtain ⟨r, hr, h⟩ := bind_eq_ok.mp h
      obtain ⟨hm, rfl⟩ := Prod.mk.inj (Except.ok.inj h)
      have hund' := fun hund' => hund ((Undisturbed.succ_iff hcount hk).mpr hund')
      have hsum' : done + min left k + (left - k) = n := by omega
      rcases ih hund' hsum' (hr.trans (congrArg (fun m => Except.ok (m, r.2)) hm)) with hout | hcounted
      · exact .inl fun hin => hout hin.2.2
      · refine .inr ?_
        rw [total_cons, ← Nat.add_assoc]
        exact hcounted

theorem transferBytes_iff (hn : n < 2 ^ 32) :
    Transfers (fun fuel => transferBytes n results fuel 0 (toInt n)) n 1 ↔
      n < 2 ^ 31 ∧ Undisturbed results n := by
  by_cases hint : n < 2 ^ 31
  · rw [toInt_of_bounds (n := n) (by omega) (by omega), and_iff_right hint]
    constructor
    · rintro ⟨fuel, items, requests, hrun, hin, hitems⟩
      by_contra hund
      rcases transferBytes_disturbed hund (Nat.zero_add n) hint hrun with hout | hcounted
      · exact hout hin
      · rw [Nat.div_one] at hitems
        omega
    · intro hund
      obtain ⟨rs, hrs, hin⟩ := transferBytes_ends hund (Nat.lt_succ_self n) (Nat.zero_add n) hint
      refine ⟨n + 1, total rs, rs, ?_, hin, (Nat.div_one _).symm⟩
      show transferBytes n results (n + 1) (0 : Nat) n = _
      rw [hrs, Nat.zero_add]
  · refine iff_of_false ?_ fun h => hint h.1
    rintro ⟨fuel, items, requests, hrun, -, hitems⟩
    -- as an `int` the number is negative, and nothing is transferred
    have hneg : ¬toInt n > 0 := by
      unfold toInt
      rw [Int.bmod_def]
      split <;> omega
    cases fuel with
    | zero => cases hrun
    | succ fuel =>
      dsimp only at hrun
      rw [transferBytes_done n results fuel 0 hneg] at hrun
      obtain ⟨rfl, rfl⟩ := Prod.mk.inj (Except.ok.inj hrun)
      rw [Nat.div_one] at hitems
      change n = 0 at hitems
      omega

/-! ### All four -/

/-- When the transfers are right. -/
theorem transfers_iff (results : Results) (hsize : size < 2 ^ 64) (hn : n < 2 ^ 32) :
    (Transfers (fread results size count) (size * count) size ↔
      size ≠ 0 ∧ Undisturbed results (u64 (size * count))) ∧
    (Transfers (fwrite results size count) (size * count) size ↔
      size ≠ 0 ∧ Undisturbed results (u64 (size * count))) ∧
    (Transfers (Filebuf.xsgetn results n) n 1 ↔ n < 2 ^ 31 ∧ Undisturbed results n) ∧
    (Transfers (Filebuf.xsputn results n) n 1 ↔ n < 2 ^ 31 ∧ Undisturbed results n) :=
  ⟨transferItems_iff hsize, transferItems_iff hsize, transferBytes_iff hn, transferBytes_iff hn⟩

/-- A file that ends after two short reads. -/
theorem transfers_iff_short : (Transfers (fread (fun call => if call < 2 then some 3 else some 0) 4 5)
      (4 * 5) 4 ↔ 4 ≠ 0 ∧ Undisturbed (fun call => if call < 2 then some 3 else some 0) (u64 (4 * 5))) ∧
    (Transfers (fwrite (fun call => if call < 2 then some 3 else some 0) 4 5) (4 * 5) 4 ↔
      4 ≠ 0 ∧ Undisturbed (fun call => if call < 2 then some 3 else some 0) (u64 (4 * 5))) ∧
    (Transfers (Filebuf.xsgetn (fun call => if call < 2 then some 3 else some 0) 20) 20 1 ↔
      20 < 2 ^ 31 ∧ Undisturbed (fun call => if call < 2 then some 3 else some 0) 20) ∧
    (Transfers (Filebuf.xsputn (fun call => if call < 2 then some 3 else some 0) 20) 20 1 ↔
      20 < 2 ^ 31 ∧ Undisturbed (fun call => if call < 2 then some 3 else some 0) 20) :=
  transfers_iff _ (by decide) (by decide)

/-- A byte and a failure in turn: two bytes are never transferred. -/
theorem transfer_endless (fuel place res : Nat) :
    transfer (fun call => if call % 2 = 0 then some 1 else none) fuel place res 2 = .error .diverges := by
  induction fuel using Nat.twoStepInduction generalizing place res with
  | zero => rfl
  | one => rfl
  | more fuel ih _ =>
    have hresults : (fun call => if (call + 1 + 1) % 2 = 0 then some 1 else none) =
        fun call => if call % 2 = 0 then some 1 else none :=
      funext fun call => by rw [Nat.add_assoc, Nat.add_mod_right]
    have htwo : u64 (1 + 2 ^ 64 - (2 ^ 64 - 1)) = 2 := by decide
    rw [transfer_some (k := 1) rfl Nat.one_ne_zero Nat.two_pos (by decide), transfer_failure rfl Nat.one_pos,
      htwo, hresults, ih]
    rfl

/-- A failed call moves the transfer one byte back, and may keep it from ever ending; a request that is no
`int` is answered without a call. -/
theorem failure_moves_back :
    ¬Transfers (fread (fun call => if call = 1 then none else some 1) 1 2) (1 * 2) 1 ∧
    (∀ fuel, fread (fun call => if call % 2 = 0 then some 1 else none) 1 2 fuel = .error .diverges) ∧
    ¬Transfers (Filebuf.xsgetn (fun call => if call = 1 then none else some 1) 2) 2 1 ∧
    ¬Transfers (Filebuf.xsgetn (fun _ => some 1) (2 ^ 31)) (2 ^ 31) 1 := by
  have hdisturbed : ¬Undisturbed (fun call => if call = 1 then none else some 1) 2 := fun h => by
    rcases h 1 rfl with ⟨c, hc, hzero⟩ | hle
    · obtain rfl := Nat.lt_one_iff.mp hc
      cases hzero
    · exact absurd hle (by decide)
  refine ⟨fun h => ?_, fun fuel => ?_, fun h => ?_, fun h => ?_⟩
  · exact hdisturbed ((transferItems_iff (by decide)).mp h).2
  · have hloop := transfer_endless fuel 0 0
    rw [fread, transferItems]
    show (transfer _ fuel 0 0 2 >>= _) = _
    rw [hloop]
    rfl
  · exact hdisturbed ((transferBytes_iff (by decide)).mp h).2
  · exact absurd ((transferBytes_iff (by decide)).mp h).1 (Nat.lt_irrefl _)

end SupOS.Libc
