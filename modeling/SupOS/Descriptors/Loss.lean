import SupOS.Processes.Blocking

/-! Which objects a call on the descriptors deletes: those whose slots it takes away all at once. -/

namespace SupOS

open Lib Libcpp

open FileDescriptor (element)

variable {h h' : Owners} {v v' w : Table} {room n i : Nat} {fd : FileDescriptor}

theorem copy_eq {x : FileDescriptor} (hc : fd.copy h = .ok (x, h')) : x = fd := by
  unfold FileDescriptor.copy at hc
  split at hc
  · exact (Prod.mk.inj (Except.ok.inj hc)).1.symm
  · split at hc
    · cases hc
    · exact (Prod.mk.inj (Except.ok.inj hc)).1.symm

theorem construct_eq {l ys : List FileDescriptor}
    (hc : construct FileDescriptor.copy l h = .ok (ys, h')) : ys = l := by
  induction l generalizing h ys with
  | nil => exact (Prod.mk.inj (Except.ok.inj hc)).1.symm
  | cons fd l ih =>
    unfold construct at hc
    obtain ⟨⟨y, h₁⟩, hcopy, hc⟩ := bind_eq_ok.mp hc
    obtain ⟨⟨ys', h₂⟩, hrest, hc⟩ := bind_eq_ok.mp hc
    obtain ⟨rfl, rfl⟩ := Prod.mk.inj (pure_eq_ok.mp hc)
    rw [copy_eq hcopy, ih hrest]

namespace Table

theorem assign_data (hv : assign v h i fd = .ok (v', h')) : v'.data = v.data.set i fd := by
  unfold assign at hv
  split at hv
  · cases hv
  · obtain ⟨⟨new, h₁⟩, hassign, hv⟩ := bind_eq_ok.mp hv
    obtain ⟨rfl, -⟩ := Prod.mk.inj (pure_eq_ok.mp hv)
    obtain ⟨h₂, -, hcopy⟩ := bind_eq_ok.mp hassign
    rw [copy_eq hcopy]

theorem assignTemporary_data (hv : assignTemporary v h i fd = .ok (v', h')) :
    v'.data = v.data.set i fd := by
  obtain ⟨⟨v₁, h₁⟩, hassign, hv⟩ := bind_eq_ok.mp hv
  obtain ⟨h₂, -, hv⟩ := bind_eq_ok.mp hv
  obtain ⟨rfl, -⟩ := Prod.mk.inj (pure_eq_ok.mp hv)
  exact assign_data hassign

theorem reserve_data (hv : v.reserve element room n h = .ok (v', h')) : v'.data = v.data := by
  unfold Vector.reserve at hv
  split at hv
  · rw [(Prod.mk.inj (Except.ok.inj hv)).1]
  · obtain ⟨c, -, hv⟩ := bind_eq_ok.mp hv
    obtain ⟨_, -, hv⟩ := bind_eq_ok.mp hv
    obtain ⟨⟨data, h₁⟩, hcopy, hv⟩ := bind_eq_ok.mp hv
    obtain ⟨rfl, -⟩ := Prod.mk.inj (pure_eq_ok.mp hv)
    exact construct_eq hcopy

/-- A table that does not shrink keeps its slots in their places. -/
theorem extend_data {newfd : Nat} (hv : extend room v h newfd n = .ok (v', h'))
    (hn : v.size ≤ newfd → v.size ≤ n) :
    v'.data = v.data ++ List.replicate (if v.size ≤ newfd then n - v.size else 0) .empty := by
  unfold extend at hv
  split at hv
  · rename_i hle
    have hsize := hn hle
    unfold Vector.resize at hv
    rw [if_pos hle]
    split at hv
    · rename_i heq
      have hsame : v' = v := (Prod.mk.inj (Except.ok.inj hv)).1.symm
      rw [hsame, heq, Nat.sub_self, List.replicate_zero, List.append_nil]
    · rw [if_neg (by omega)] at hv
      obtain ⟨⟨v₁, h₁⟩, hreserve, hv⟩ := bind_eq_ok.mp hv
      obtain ⟨rfl, -⟩ := Prod.mk.inj (pure_eq_ok.mp hv)
      have hdata := reserve_data hreserve
      have hlen : v₁.size = v.size := congrArg List.length hdata
      rw [hdata, hlen]
      rfl
  · rename_i hlt
    have hsame : v' = v := (Prod.mk.inj (Except.ok.inj hv)).1.symm
    rw [hsame, if_neg hlt, List.replicate_zero, List.append_nil]

theorem extend_prefix {newfd : Nat} (hv : extend room v h newfd n = .ok (v', h'))
    (hn : v.size ≤ newfd → v.size ≤ n) : v.data <+: v'.data := by
  rw [extend_data hv hn]
  exact List.prefix_append _ _

/-- A write behind the slots of `v`. -/
theorem prefix_set (hw : v.data <+: w.data) (hi : v.size ≤ i) (fd : FileDescriptor) :
    v.data <+: w.data.set i fd := by
  obtain ⟨rest, hrest⟩ := hw
  rw [← hrest, List.set_append_right i fd hi]
  exact List.prefix_append _ _

theorem sharing_setMask (v : Table) (i mask o : Nat) :
    sharing (v.setMask i mask).data o = sharing v.data o := by
  have hcount : ∀ l : List FileDescriptor, sharing l o = (l.map (·.owners)).countP (· == some o) := by
    intro l
    rw [List.countP_map]
    rfl
  have hmap : (v.setMask i mask).data.map (·.owners) = v.data.map (·.owners) := by
    refine List.ext_getElem (by simp [setMask]) fun j hj hj' => ?_
    simp only [setMask, List.getElem_map, List.getElem_modify]
    split <;> rfl
  rw [hcount, hcount, hmap]

/-- No object has fewer slots than before. -/
def Covers (v v' : Table) : Prop := ∀ o, sharing v.data o ≤ sharing v'.data o

theorem sharing_prefix {l m : List FileDescriptor} (hl : l <+: m) (o : Nat) :
    sharing l o ≤ sharing m o := by
  obtain ⟨rest, rfl⟩ := hl
  rw [sharing_append]
  exact Nat.le_add_right _ _

theorem covers_of_prefix (hv : v.data <+: v'.data) : Covers v v' := sharing_prefix hv

theorem sysopen_covers {flags res : Nat} (hs : Stored v)
    (hv : sysopen room v h flags = .ok (res, v', h')) : Covers v v' := by
  simp only [sysopen, u32_size hs, u32_size_succ hs] at hv
  obtain ⟨⟨v₁, h₁⟩, hextend, hv⟩ := bind_eq_ok.mp hv
  obtain ⟨⟨v₂, h₂⟩, hassign, hv⟩ := bind_eq_ok.mp hv
  obtain ⟨-, rfl, -⟩ : _ ∧ _ ∧ _ := by simpa using pure_eq_ok.mp hv
  have hpre := extend_prefix hextend fun _ => Nat.le_succ _
  intro o
  rw [sharing_setMask, assignTemporary_data hassign]
  exact sharing_prefix (prefix_set hpre (Nat.le_refl _) _) o

theorem sysopend_covers {res : Nat} (hs : Stored v)
    (hv : sysopend room v h = .ok (res, v', h')) : Covers v v' := by
  simp only [sysopend, u32_size hs, u32_size_succ hs] at hv
  obtain ⟨⟨v₁, h₁⟩, hextend, hv⟩ := bind_eq_ok.mp hv
  obtain ⟨⟨v₂, h₂⟩, hassign, hv⟩ := bind_eq_ok.mp hv
  obtain ⟨-, rfl, -⟩ : _ ∧ _ ∧ _ := by simpa using pure_eq_ok.mp hv
  have hpre := extend_prefix hextend fun _ => Nat.le_succ _
  apply covers_of_prefix
  rw [assignTemporary_data hassign]
  exact prefix_set hpre (Nat.le_refl _) _

theorem assignFrom_data {j : Nat} (hv : assignFrom v h i j = .ok (v', h')) :
    ∃ fd, v.data[j]? = some fd ∧ v'.data = v.data.set i fd := by
  unfold assignFrom at hv
  split at hv
  · cases hv
  · rename_i fd hfd
    exact ⟨fd, hfd, assign_data hv⟩

theorem sysdup_covers {oldfd res : Nat} (hs : Stored v)
    (hv : sysdup room v h oldfd = .ok (res, v', h')) : Covers v v' := by
  simp only [sysdup, u32_size hs, u32_size_succ hs] at hv
  split at hv
  · obtain ⟨-, rfl, -⟩ : _ ∧ _ ∧ _ := by simpa using hv
    exact fun o => Nat.le_refl _
  · obtain ⟨⟨v₁, h₁⟩, hextend, hv⟩ := bind_eq_ok.mp hv
    obtain ⟨⟨v₂, h₂⟩, hassign, hv⟩ := bind_eq_ok.mp hv
    obtain ⟨-, rfl, -⟩ : _ ∧ _ ∧ _ := by simpa using pure_eq_ok.mp hv
    have hpre := extend_prefix hextend fun _ => Nat.le_succ _
    obtain ⟨fd, -, hdata⟩ := assignFrom_data hassign
    apply covers_of_prefix
    rw [hdata]
    exact prefix_set hpre (Nat.le_refl _) _

theorem syspipe_covers {res : Nat} (hs : Stored v)
    (hv : syspipe room v h = .ok (res, v', h')) : Covers v v' := by
  have hcap := hs.capacity
  have hsize := hs.size
  have hsmall : ∀ k, k < 2 ^ 31 → i32 (u32 k) = k := fun k hk => by
    rw [u32_of_lt (by omega), i32_of_lt hk]
  simp only [syspipe, hsmall v.size (by omega), i32_of_lt (show v.size + 1 < 2 ^ 31 by omega)] at hv
  obtain ⟨⟨v₁, h₁⟩, hextend, hv⟩ := bind_eq_ok.mp hv
  have hdata₁ := extend_data hextend fun _ => Nat.le_succ _
  have hsize₁ : v₁.size = v.size + 1 := by
    rw [Libcpp.Vector.size, hdata₁, if_pos (Nat.le_refl _), List.length_append,
      List.length_replicate, Nat.add_sub_cancel_left]
    rfl
  simp only [hsize₁, hsmall (v.size + 1) (by omega),
    i32_of_lt (show v.size + 1 + 1 < 2 ^ 31 by omega)] at hv
  obtain ⟨⟨v₂, h₂⟩, hextend₂, hv⟩ := bind_eq_ok.mp hv
  obtain ⟨⟨v₃, h₃⟩, hout, hv⟩ := bind_eq_ok.mp hv
  obtain ⟨⟨v₄, h₄⟩, hinp, hv⟩ := bind_eq_ok.mp hv
  obtain ⟨-, rfl, -⟩ : _ ∧ _ ∧ _ := by simpa using pure_eq_ok.mp hv
  have hpre₁ : v.data <+: v₁.data := by
    rw [hdata₁]
    exact List.prefix_append _ _
  have hpre₂ : v₁.data <+: v₂.data := extend_prefix hextend₂ fun _ => by omega
  have hpre₃ : v.data <+: v₃.data := by
    rw [assignTemporary_data hout]
    exact prefix_set (hpre₁.trans hpre₂) (Nat.le_refl _) _
  apply covers_of_prefix
  rw [assignTemporary_data hinp]
  exact prefix_set hpre₃ (Nat.le_succ _) _

/-- What a write takes away is the old descriptor of the slot. -/
theorem sharing_set {l : List FileDescriptor} (x : FileDescriptor) (o : Nat) :
    sharing l o ≤ sharing (l.set i x) o + sharing l[i]?.toList o := by
  induction l generalizing i with
  | nil => exact Nat.zero_le _
  | cons fd l ih =>
    cases i with
    | zero =>
      simp only [List.set_cons_zero, List.getElem?_cons_zero, Option.toList_some, sharing_cons,
        sharing_nil]
      omega
    | succ i =>
      have hrest := ih (i := i)
      simp only [List.set_cons_succ, List.getElem?_cons_succ, sharing_cons]
      omega

/-- A call takes slots away from an object only by dropping their descriptors. -/
def Loses (v : Table) (c : Descriptors.Call) (v' : Table) : Prop :=
  ∀ o, sharing v.data o ≤ sharing v'.data o + sharing (Descriptors.discards v c) o

theorem sysclose_loses {fd res : Nat} (hv : sysclose v h fd = .ok (res, v', h')) :
    Loses v (.sysclose fd) v' := by
  intro o
  unfold sysclose at hv
  split at hv
  · obtain ⟨-, rfl, -⟩ : _ ∧ _ ∧ _ := by simpa using hv
    exact Nat.le_add_right _ _
  · split at hv
    · obtain ⟨-, rfl, -⟩ : _ ∧ _ ∧ _ := by simpa using hv
      exact Nat.le_add_right _ _
    · obtain ⟨⟨v₁, h₁⟩, hassign, hv⟩ := bind_eq_ok.mp hv
      obtain ⟨-, rfl, -⟩ : _ ∧ _ ∧ _ := by simpa using pure_eq_ok.mp hv
      rw [assignTemporary_data hassign]
      exact sharing_set _ o

theorem sysdup2_loses {oldfd newfd res : Nat} (hwrap : oldfd < v.size → newfd + 1 < 2 ^ 64)
    (hv : sysdup2 room v h oldfd newfd = .ok (res, v', h')) : Loses v (.sysdup2 oldfd newfd) v' := by
  intro o
  unfold sysdup2 at hv
  split at hv
  · obtain ⟨-, rfl, -⟩ : _ ∧ _ ∧ _ := by simpa using hv
    exact Nat.le_add_right _ _
  · rename_i hlt
    rw [u64_of_lt (hwrap (by omega))] at hv
    obtain ⟨⟨v₁, h₁⟩, hextend, hv⟩ := bind_eq_ok.mp hv
    obtain ⟨⟨v₂, h₂⟩, hassign, hv⟩ := bind_eq_ok.mp hv
    obtain ⟨-, rfl, -⟩ : _ ∧ _ ∧ _ := by simpa using pure_eq_ok.mp hv
    obtain ⟨fd, -, hdata⟩ := assignFrom_data hassign
    have hpre := extend_prefix hextend fun _ => by omega
    rw [hdata]
    by_cases hnew : v.size ≤ newfd
    · have hcovers := sharing_prefix (prefix_set hpre hnew fd) o
      exact Nat.le_trans hcovers (Nat.le_add_right _ _)
    · have hsame := extend_data hextend fun _ => by omega
      rw [if_neg hnew, List.replicate_zero, List.append_nil] at hsame
      rw [hsame, Descriptors.discards, if_neg hlt, if_neg hnew]
      exact sharing_set fd o

end Table

namespace Descriptors

variable {s s' : Descriptors} {p : Nat} {L : List FileDescriptor} {c : Call}

theorem sharing_slots (l₁ l₂ : List (Nat × Table)) (p : Nat) (w : Table) (o : Nat) :
    sharing ((l₁ ++ (p, w) :: l₂).flatMap (·.2.data)) o =
      sharing w.data o + sharing ((l₁ ++ l₂).flatMap (·.2.data)) o := by
  simp only [List.flatMap_append, List.flatMap_cons, sharing_append]
  omega

/-- The slots of all tables after the one of `p` has changed. -/
theorem sharing_replace (hv : s.tables.lookup p = some v) (w : Table) (o : Nat) :
    sharing ((replace p w s.tables).flatMap (·.2.data)) o + sharing v.data o =
      sharing s.slots o + sharing w.data o := by
  obtain ⟨l₁, l₂, htables, hrep, -⟩ := split_table hv
  rw [slots, hrep, htables, sharing_slots, sharing_slots]
  omega

theorem sharing_getElem? {l : List FileDescriptor} {o : Nat} : sharing l[i]?.toList o ≤ sharing l o := by
  cases hx : l[i]? with
  | none => exact Nat.zero_le _
  | some x =>
    have hmem : [x].Sublist l := List.singleton_sublist.mpr (List.mem_of_getElem? hx)
    exact hmem.countP_le

theorem sharing_discards (v : Table) (c : Call) (o : Nat) :
    sharing (discards v c) o ≤ sharing v.data o := by
  cases c with
  | sysclose fd => exact sharing_getElem?
  | sysdup2 oldfd newfd =>
    simp only [discards]
    by_cases hold : v.size ≤ oldfd
    · rw [if_pos hold]
      exact Nat.zero_le _
    · rw [if_neg hold]
      by_cases hnew : v.size ≤ newfd
      · rw [if_pos hnew]
        exact (List.drop_sublist _ _).countP_le
      · rw [if_neg hnew]
        exact sharing_getElem?
  | destroy => exact Nat.le_refl _
  | sysopen | sysopend | sysdup | syspipe | fork | exec => exact Nat.zero_le _

/-- What is shared by more slots than a call drops stays. -/
theorem Books.keeps {L' : List FileDescriptor} {o : Nat} (hB : Books L s) (hB' : Books L' s')
    (hv : s.tables.lookup p = some v) (ho : s.owners.count o ≠ none)
    (hlost : o ∉ lost s.owners (discards v c))
    (hle : sharing (s.slots ++ L) o ≤ sharing (s'.slots ++ L') o + sharing (discards v c) o) :
    s'.owners.count o ≠ none := by
  have hpos : sharing (s.slots ++ L) o ≠ 0 := by
    intro hzero
    rw [hB.balanced.count, hzero] at ho
    exact ho rfl
  have hne : sharing (discards v c) o ≠ sharing (s.slots ++ L) o := by
    intro heq
    apply hlost
    have hmem : ∃ fd ∈ discards v c, fd.owners = some o := sharing_pos.mp (by omega)
    refine List.mem_filter.mpr ⟨List.mem_filterMap.mpr hmem, ?_⟩
    rw [hB.balanced.count, countOf, if_neg hpos, heq]
    exact decide_eq_true rfl
  have hsub : sharing (discards v c) o ≤ sharing (s.slots ++ L) o := by
    have hreplace := sharing_replace hv .empty o
    have hdiscards := sharing_discards v c o
    have hempty : sharing (Libcpp.Vector.empty : Table).data o = 0 := rfl
    rw [sharing_append]
    omega
  rw [hB'.balanced.count, countOf, if_neg (by omega)]
  exact Option.some_ne_none _

theorem call_eq_ok {f : Table → Owners → Except Fault (Nat × Table × Owners)}
    (hs : (·.2) <$> s.call p f = .ok s') : ∃ v res v' h', s.tables.lookup p = some v ∧
      f v s.owners = .ok (res, v', h') ∧ s' = ⟨h', replace p v' s.tables⟩ := by
  cases hcall : s.call p f with
  | error e =>
    rw [hcall] at hs
    cases hs
  | ok r =>
    rw [hcall] at hs
    obtain rfl : r.2 = s' := Except.ok.inj hs
    obtain ⟨v, htable, hcall⟩ := bind_eq_ok.mp hcall
    obtain ⟨⟨res, v', h'⟩, hf, hcall⟩ := bind_eq_ok.mp hcall
    obtain rfl := pure_eq_ok.mp hcall
    unfold table at htable
    cases hv : s.tables.lookup p with
    | none =>
      rw [hv] at htable
      cases htable
    | some w =>
      rw [hv] at htable
      obtain rfl := Except.ok.inj htable
      exact ⟨_, res, v', h', rfl, hf, rfl⟩

/-- The table of the caller after a call of a process. -/
theorem apply_loses {room : Nat} (hB : Books L s) (hv : s.tables.lookup p = some v)
    (hsafe : c.Safe v s.owners) (hf : ∀ child, c ≠ .fork child)
    (hs : s.apply ⟨p, room, c⟩ = .ok s') (o : Nat) :
    sharing s.slots o ≤ sharing s'.slots o + sharing (discards v c) o := by
  obtain ⟨l₁, l₂, htables, -, hrem⟩ := split_table hv
  have hstored : Stored v := hB.stored (p, v) (by simp [htables])
  have hcall : ∀ {f : Table → Owners → Except Fault (Nat × Table × Owners)},
      (·.2) <$> s.call p f = .ok s' → (∀ res v' h', f v s.owners = .ok (res, v', h') →
        Table.Loses v c v') → sharing s.slots o ≤ sharing s'.slots o + sharing (discards v c) o := by
    intro f hf hloses
    obtain ⟨w, res, v', h', hw, hok, rfl⟩ := call_eq_ok hf
    obtain rfl : v = w := Option.some.inj (hv.symm.trans hw)
    have hreplace := sharing_replace hv v' o
    have hle := hloses res v' h' hok o
    change _ ≤ sharing ((replace p v' s.tables).flatMap (·.2.data)) o + _
    omega
  have hcovers : ∀ {v'}, Table.Covers v v' → Table.Loses v c v' := fun h o =>
    Nat.le_trans (h o) (Nat.le_add_right _ _)
  cases c with
  | sysopen flags => exact hcall hs fun _ _ _ hok => hcovers (Table.sysopen_covers hstored hok)
  | sysopend => exact hcall hs fun _ _ _ hok => hcovers (Table.sysopend_covers hstored hok)
  | sysclose fd => exact hcall hs fun _ _ _ hok => Table.sysclose_loses hok
  | sysdup oldfd => exact hcall hs fun _ _ _ hok => hcovers (Table.sysdup_covers hstored hok)
  | sysdup2 oldfd newfd => exact hcall hs fun _ _ _ hok => Table.sysdup2_loses hsafe.1 hok
  | syspipe => exact hcall hs fun _ _ _ hok => hcovers (Table.syspipe_covers hstored hok)
  | fork child => exact absurd rfl (hf child)
  | exec =>
    obtain rfl := Except.ok.inj hs
    exact Nat.le_add_right _ _
  | destroy =>
    obtain ⟨w, htable, hs⟩ := bind_eq_ok.mp hs
    obtain ⟨h', -, hs⟩ := bind_eq_ok.mp hs
    obtain rfl := pure_eq_ok.mp hs
    change sharing (s.tables.flatMap (·.2.data)) o ≤
      sharing ((remove p s.tables).flatMap (·.2.data)) o + sharing v.data o
    rw [hrem, htables, sharing_slots, Nat.add_comm]

/-- A call keeps the books, and every object that it does not take all slots from. -/
theorem apply_keeps {room : Nat} (hB : Books L s) (ha : Admits s ⟨p, room, c⟩)
    (hv : s.tables.lookup p = some v) (hf : ∀ child, c ≠ .fork child)
    (hs : s.apply ⟨p, room, c⟩ = .ok s') : (∃ L', Books L' s') ∧
      ∀ o, s.owners.count o ≠ none → o ∉ lost s.owners (discards v c) →
        s'.owners.count o ≠ none := by
  have hsafe : c.Safe v s.owners := by
    by_contra hunsafe
    obtain ⟨e, he⟩ := unsafe_stops hB ha hv hunsafe
    rw [hs] at he
    cases he
  obtain ⟨left, -, hB'⟩ := (apply_spec hB ha hv hsafe).of_ok hs
  refine ⟨⟨_, hB'⟩, fun o ho hlost => hB.keeps hB' hv ho hlost ?_⟩
  have hloses := apply_loses hB hv hsafe hf hs o
  rw [sharing_append, sharing_append, sharing_append]
  omega

/-- The table of a child takes nothing away. -/
theorem fork_keeps {room child o : Nat} (hB : Books L s) (hv : s.tables.lookup p = some v)
    (hroom : room < kernelSpace) (hs : s.fork room p child = .ok s') : Books L s' ∧
      (s.owners.count o ≠ none → s'.owners.count o ≠ none) := by
  have hB' := (fork_spec hB hv hroom).of_ok hs
  refine ⟨hB', fun ho => ?_⟩
  obtain ⟨w, -, hs⟩ := bind_eq_ok.mp hs
  obtain ⟨⟨fds, h₁⟩, -, hs⟩ := bind_eq_ok.mp hs
  obtain ⟨⟨own, h₂⟩, -, hs⟩ := bind_eq_ok.mp hs
  obtain ⟨h₃, -, hs⟩ := bind_eq_ok.mp hs
  obtain rfl := pure_eq_ok.mp hs
  rw [hB.balanced.count] at ho
  rw [hB'.balanced.count]
  have hslots : sharing (s.slots ++ L) o ≤
      sharing (slots ⟨h₃, (child, own) :: s.tables⟩ ++ L) o := by
    change _ ≤ sharing (((child, own) :: s.tables).flatMap (·.2.data) ++ L) o
    rw [List.flatMap_cons, List.append_assoc, sharing_append own.data]
    exact Nat.le_add_left _ _
  unfold countOf at ho ⊢
  split at ho
  · exact absurd rfl ho
  · rw [if_neg (by omega)]
    exact Option.some_ne_none _

end Descriptors

namespace FileDescriptor

theorem drop_meets : Ensures (fd.drop h) NoAssertion fun _ => True := by
  unfold drop
  split
  · trivial
  · split
    · exact fun he => by cases he
    · trivial
    · trivial
    · trivial

theorem copy_meets : Ensures (fd.copy h) NoAssertion fun _ => True := by
  unfold copy
  split
  · trivial
  · split
    · exact fun he => by cases he
    · trivial

theorem destroy_meets {l : List FileDescriptor} :
    Ensures (destroy element l h) NoAssertion fun _ => True := by
  induction l generalizing h with
  | nil => trivial
  | cons fd l ih => exact drop_meets.bind fun _ _ => ih

end FileDescriptor

namespace Table

open FileDescriptor

theorem assign_meets : Ensures (assign v h i fd) NoAssertion fun _ => True := by
  unfold assign
  split
  · exact fun he => by cases he
  · exact Ensures.bind (drop_meets.bind fun _ _ => copy_meets) fun _ _ => trivial

theorem sysclose_meets : Ensures (sysclose v h i) NoAssertion fun _ => True := by
  unfold sysclose
  split
  · trivial
  · split
    · trivial
    · have htemporary : Ensures (assignTemporary v h i .empty) NoAssertion fun _ => True :=
        assign_meets.bind fun _ _ => drop_meets.bind fun _ _ => Ensures.ok.mpr trivial
      exact htemporary.bind fun _ _ => trivial

theorem sysdup2_meets {oldfd newfd : Nat} (hnew : newfd < v.size ∨ u64 (newfd + 1) = 0) :
    Ensures (sysdup2 room v h oldfd newfd) NoAssertion fun _ => True := by
  have hextend : Ensures (extend room v h newfd (u64 (newfd + 1))) NoAssertion fun _ => True := by
    unfold extend
    split
    · rename_i hle
      rw [hnew.resolve_left (by omega)]
      unfold Vector.resize
      split
      · trivial
      · rw [if_pos (by omega)]
        exact destroy_meets.bind fun _ _ => trivial
    · trivial
  have hfrom : ∀ w k, Ensures (assignFrom w k newfd oldfd) NoAssertion fun _ => True := by
    intro w k
    unfold assignFrom
    split
    · exact fun he => by cases he
    · exact assign_meets
  unfold sysdup2
  split
  · trivial
  · exact hextend.bind fun _ _ => (hfrom _ _).bind fun _ _ => trivial

end Table

namespace Descriptors

variable {s : Descriptors} {p : Nat}

theorem call_meets {f : Table → Owners → Except Fault (Nat × Table × Owners)}
    (hf : ∀ v, s.tables.lookup p = some v → Ensures (f v s.owners) NoAssertion fun _ => True) :
    Ensures ((·.2) <$> s.call p f) NoAssertion fun _ => True := by
  unfold call table
  cases hv : s.tables.lookup p with
  | none => exact fun he => by cases he
  | some v =>
    have hcall := hf v hv
    rw [ok_bind]
    cases hr : f v s.owners with
    | ok r => trivial
    | error e => exact hcall.of_error hr

theorem destroy_meets : Ensures (s.destroy p) NoAssertion fun _ => True := by
  unfold destroy table
  cases s.tables.lookup p with
  | none => exact fun he => by cases he
  | some v => exact FileDescriptor.destroy_meets.bind fun _ _ => trivial

end Descriptors

end SupOS
