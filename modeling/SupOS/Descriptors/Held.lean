import SupOS.Descriptors.Loss

/-! What the tables of the processes still hold after a call. -/

namespace SupOS

open Lib Libcpp

open FileDescriptor (element)

namespace Table

variable {h h' : Owners} {v v' : Table} {room : Nat}

/-- The descriptors that a call takes out of the table of the caller; a slot that is assigned to itself
keeps its own. -/
def taken (v : Table) : Descriptors.Call → List FileDescriptor
  | .sysdup2 oldfd newfd => if oldfd = newfd then [] else Descriptors.discards v (.sysdup2 oldfd newfd)
  | c => Descriptors.discards v c

/-- What a call leaves in the table of the caller. -/
def Spares (v : Table) (c : Descriptors.Call) (v' : Table) : Prop :=
  ∀ o, sharing v.data o ≤ sharing v'.data o + sharing (taken v c) o

theorem Covers.spares {c : Descriptors.Call} (hc : Covers v v') : Spares v c v' := fun o =>
  Nat.le_trans (hc o) (Nat.le_add_right _ _)

theorem sysdup2_spares {oldfd newfd res : Nat} (hwrap : oldfd < v.size → newfd + 1 < 2 ^ 64)
    (hv : sysdup2 room v h oldfd newfd = .ok (res, v', h')) : Spares v (.sysdup2 oldfd newfd) v' := by
  by_cases heq : oldfd = newfd
  · subst heq
    intro o
    unfold sysdup2 at hv
    split at hv
    · obtain ⟨-, rfl, -⟩ : _ ∧ _ ∧ _ := by simpa using hv
      exact Nat.le_add_right _ _
    · rename_i hlt
      rw [extend, if_neg hlt, ok_bind] at hv
      obtain ⟨⟨v₁, h₁⟩, hassign, hv⟩ := bind_eq_ok.mp hv
      obtain ⟨-, rfl, -⟩ : _ ∧ _ ∧ _ := by simpa using pure_eq_ok.mp hv
      obtain ⟨fd, hfd, hdata⟩ := assignFrom_data hassign
      obtain ⟨hi, rfl⟩ := List.getElem?_eq_some_iff.mp hfd
      rw [hdata, List.set_getElem_self hi]
      exact Nat.le_add_right _ _
  · intro o
    rw [taken, if_neg heq]
    exact sysdup2_loses hwrap hv o

end Table

namespace Descriptors

variable {s s' : Descriptors} {p q room : Nat} {v w : Table} {L : List FileDescriptor} {c : Call}

theorem lookup_replace_self {α : Type} {l : List (Nat × α)} {v : α} (w : α)
    (hv : l.lookup p = some v) : (replace p w l).lookup p = some w := by
  induction l with
  | nil => cases hv
  | cons e l ih =>
    obtain ⟨q, u⟩ := e
    unfold replace
    by_cases hq : p = q
    · rw [if_pos hq, hq, List.lookup_cons_self]
    · rw [List.lookup_cons, beq_false_of_ne hq] at hv
      rw [if_neg hq, List.lookup_cons, beq_false_of_ne hq]
      exact ih hv

theorem lookup_replace_of_ne {α : Type} (l : List (Nat × α)) (w : α) (hq : q ≠ p) :
    (replace p w l).lookup q = l.lookup q := by
  induction l with
  | nil => rfl
  | cons e l ih =>
    obtain ⟨x, u⟩ := e
    unfold replace
    by_cases hx : p = x
    · subst hx
      rw [if_pos rfl, List.lookup_cons, List.lookup_cons, beq_false_of_ne hq]
    · rw [if_neg hx, List.lookup_cons, List.lookup_cons, ih]

theorem lookup_remove_of_ne {α : Type} (l : List (Nat × α)) (hq : q ≠ p) :
    (remove p l).lookup q = l.lookup q := by
  induction l with
  | nil => rfl
  | cons e l ih =>
    obtain ⟨x, u⟩ := e
    unfold remove
    by_cases hx : p = x
    · subst hx
      rw [if_pos rfl, List.lookup_cons, beq_false_of_ne hq]
    · rw [if_neg hx, List.lookup_cons, List.lookup_cons, ih]

/-- A call of a process leaves its own table without what it takes, and the other tables. -/
theorem apply_spares (hB : Books L s) (ha : Admits s ⟨p, room, c⟩) (hv : s.tables.lookup p = some v)
    (hfork : ∀ child, c ≠ .fork child) (hdestroy : c ≠ .destroy) (hs : s.apply ⟨p, room, c⟩ = .ok s') :
    (∃ v', s'.tables.lookup p = some v' ∧ Table.Spares v c v') ∧
      ∀ q, q ≠ p → s'.tables.lookup q = s.tables.lookup q := by
  have hsafe : c.Safe v s.owners := by
    by_contra hunsafe
    obtain ⟨e, he⟩ := unsafe_stops hB ha hv hunsafe
    rw [hs] at he
    cases he
  obtain ⟨l₁, l₂, htables, -, -⟩ := split_table hv
  have hstored : Stored v := hB.stored (p, v) (by simp [htables])
  have hcall : ∀ {f : Table → Owners → Except Fault (Nat × Table × Owners)},
      (·.2) <$> s.call p f = .ok s' →
      (∀ res v' h', f v s.owners = .ok (res, v', h') → Table.Spares v c v') →
      (∃ v', s'.tables.lookup p = some v' ∧ Table.Spares v c v') ∧
        ∀ q, q ≠ p → s'.tables.lookup q = s.tables.lookup q := by
    intro f hf hspares
    obtain ⟨w, res, v', h', hw, hok, rfl⟩ := call_eq_ok hf
    obtain rfl : v = w := Option.some.inj (hv.symm.trans hw)
    exact ⟨⟨v', lookup_replace_self v' hv, hspares res v' h' hok⟩,
      fun q hq => lookup_replace_of_ne s.tables v' hq⟩
  cases c with
  | sysopen flags => exact hcall hs fun _ _ _ hok => (Table.sysopen_covers hstored hok).spares
  | sysopend => exact hcall hs fun _ _ _ hok => (Table.sysopend_covers hstored hok).spares
  | sysclose fd => exact hcall hs fun _ _ _ hok => Table.sysclose_loses hok
  | sysdup oldfd => exact hcall hs fun _ _ _ hok => (Table.sysdup_covers hstored hok).spares
  | sysdup2 oldfd newfd => exact hcall hs fun _ _ _ hok => Table.sysdup2_spares hsafe.1 hok
  | syspipe => exact hcall hs fun _ _ _ hok => (Table.syspipe_covers hstored hok).spares
  | fork child => exact absurd rfl (hfork child)
  | exec =>
    obtain rfl := Except.ok.inj hs
    exact ⟨⟨v, hv, fun _ => Nat.le_add_right _ _⟩, fun _ _ => rfl⟩
  | destroy => exact absurd rfl hdestroy

theorem fork_spares {child : Nat} (hs : s.fork room p child = .ok s') (hq : q ≠ child) :
    s'.tables.lookup q = s.tables.lookup q := by
  obtain ⟨w, -, hs⟩ := bind_eq_ok.mp hs
  obtain ⟨⟨fds, h₁⟩, -, hs⟩ := bind_eq_ok.mp hs
  obtain ⟨⟨own, h₂⟩, -, hs⟩ := bind_eq_ok.mp hs
  obtain ⟨h₃, -, hs⟩ := bind_eq_ok.mp hs
  obtain rfl := pure_eq_ok.mp hs
  rw [List.lookup_cons, beq_false_of_ne hq]

theorem destroy_spares (hs : s.destroy p = .ok s') (hq : q ≠ p) :
    s'.tables.lookup q = s.tables.lookup q := by
  obtain ⟨w, -, hs⟩ := bind_eq_ok.mp hs
  obtain ⟨h', -, hs⟩ := bind_eq_ok.mp hs
  obtain rfl := pure_eq_ok.mp hs
  exact lookup_remove_of_ne s.tables hq

end Descriptors

end SupOS
