import SupOS.Libcpp.DequeRuns
import SupOS.Video.Workspace

/-! The lists of the workspaces: each live window is on the one that it names, and once. -/

namespace SupOS.Video

open Lib Libcpp Lib.Ring

theorem Vec2u.add_comm (v w : Vec2u) : v.add w = w.add v := by
  rw [add, add, UInt32.add_comm, UInt32.add_comm v.y]

/-- Windows on lists: `own` says which list a window is on. -/
structure Lists (elems : Nat → Workspace) (own : Nat → Option Nat) (L : Nat → List Nat) : Prop where
  refines : ∀ i, (elems i).wins.Refines (L i)
  nodup : ∀ i, (L i).Nodup
  mem : ∀ i a, a ∈ L i ↔ own a = some i

namespace Lists

variable {elems : Nat → Workspace} {own : Nat → Option Nat} {L : Nat → List Nat} {w : Workspace}
  {i a : Nat} {l l' : List Nat}

/-- A list that changes, with the owners of its windows. -/
theorem update (h : Lists elems own L) {own' : Nat → Option Nat} (hw : w.wins.Refines l)
    (hl : l.Nodup) (hself : ∀ b, b ∈ l ↔ own' b = some i)
    (hother : ∀ j, j ≠ i → ∀ b, own' b = some j ↔ own b = some j) :
    Lists (Function.update elems i w) own' (Function.update L i l) where
  refines j := by
    by_cases hj : j = i
    · subst hj
      rwa [Function.update_self, Function.update_self]
    · rw [Function.update_of_ne hj, Function.update_of_ne hj]
      exact h.refines j
  nodup j := by
    by_cases hj : j = i
    · subst hj
      rwa [Function.update_self]
    · rw [Function.update_of_ne hj]
      exact h.nodup j
  mem j b := by
    by_cases hj : j = i
    · subst hj
      rw [Function.update_self]
      exact hself b
    · rw [Function.update_of_ne hj, hother j hj b]
      exact h.mem j b

/-- A list in another order. -/
theorem perm (h : Lists elems own L) (hw : w.wins.Refines l) (hl : l.Perm (L i)) :
    Lists (Function.update elems i w) own (Function.update L i l) :=
  h.update hw (hl.nodup_iff.mpr (h.nodup i)) (fun b => hl.mem_iff.trans (h.mem i b))
    fun _ _ _ => Iff.rfl

/-- A window that is put in front of a list. -/
theorem cons (h : Lists elems own L) (hw : w.wins.Refines (a :: L i)) (ha : own a = none) :
    Lists (Function.update elems i w) (Function.update own a (some i))
      (Function.update L i (a :: L i)) := by
  have hnot (j : Nat) : a ∉ L j := fun hmem => by
    rw [h.mem, ha] at hmem
    cases hmem
  refine h.update hw (List.nodup_cons.mpr ⟨hnot i, h.nodup i⟩) (fun b => ?_) fun j hj b => ?_
  · by_cases hb : b = a
    · simp [hb]
    · rw [Function.update_of_ne hb, List.mem_cons, h.mem]
      simp [hb]
  · by_cases hb : b = a
    · subst hb
      rw [Function.update_self, ha]
      simp [Ne.symm hj]
    · rw [Function.update_of_ne hb]

/-- A window that is taken from its list. -/
theorem remove (h : Lists elems own L) (hL : L i = l ++ a :: l') (hw : w.wins.Refines (l ++ l')) :
    Lists (Function.update elems i w) (Function.update own a none)
      (Function.update L i (l ++ l')) := by
  have hnodup := h.nodup i
  rw [hL, List.perm_middle.nodup_iff, List.nodup_cons] at hnodup
  have ha : own a = some i := (h.mem i a).mp (by simp [hL])
  refine h.update hw hnodup.2 (fun b => ?_) fun j hj b => ?_
  · by_cases hb : b = a
    · subst hb
      simp [hnodup.1]
    · rw [Function.update_of_ne hb, ← h.mem, hL]
      simp [hb]
  · by_cases hb : b = a
    · subst hb
      rw [Function.update_self, ha]
      simp [Ne.symm hj]
    · rw [Function.update_of_ne hb]

end Lists

namespace Workspace

variable {w : Workspace} {ws : Windows} {l : List Nat} {room : Nat}

theorem empty_iff (h : w.wins.Refines l) : w.empty = true ↔ l = [] := by
  rw [empty, decide_eq_true_iff]
  exact h.empty_iff

theorem cons_of_not_empty (h : w.wins.Refines l) (hw : ¬w.empty = true) :
    ∃ a l', l = a :: l' := List.exists_cons_of_ne_nil fun hl => hw ((empty_iff h).mpr hl)

/-- The windows of a list are live. -/
def Live (ws : Windows) (l : List Nat) : Prop := ∀ a ∈ l, ∃ win, ws.at a = .ok win

theorem Live.handleEvent (h : Live ws l) {a : Nat} (ha : a ∈ l) : ws.handleEvent a = .ok () := by
  obtain ⟨win, hwin⟩ := h a ha
  rw [Windows.handleEvent, hwin]
  rfl

/-- The first window becomes the last. -/
theorem rotate_once {d : Deque Nat} {a : Nat} (h : d.Refines (a :: l)) (hroom : room < kernelSpace) :
    ∃ d', d.popFront = .ok d' ∧ Ensures (d'.pushBack room 8 (.value a)) (· = .outOfMemory)
      fun d'' => d''.Refines (l ++ [a]) := by
  obtain ⟨d', hpop, hd'⟩ := h.popFront
  refine ⟨d', hpop, ?_⟩
  have hpush := Deque.Refines.pushBack_value (.inr hd') a hroom
  exact hpush.mono (fun _ h => h) fun d'' hd'' => .inr hd''

theorem cycle_spec (h : w.wins.Refines l) (hlive : Live ws l) (hroom : room < kernelSpace) :
    Ensures (w.cycle room ws) (· = .outOfMemory) fun w' => ∃ l', w'.wins.Refines l' ∧ l'.Perm l := by
  unfold cycle
  refine .ite (fun _ => ⟨l, h, .refl l⟩) fun hempty => ?_
  obtain ⟨a, l, rfl⟩ := cons_of_not_empty h hempty
  obtain ⟨d, hpop, hpush⟩ := rotate_once h hroom
  rw [h.front, ok_bind, hpop, ok_bind]
  refine hpush.bind fun d' hd' => ?_
  have hperm : (l ++ [a]).Perm (a :: l) := List.perm_append_singleton a l
  refine .ite (fun hsize => ?_) fun _ => ⟨_, hd', hperm⟩
  cases l with
  | nil =>
    rw [hd'.size_eq] at hsize
    exact absurd hsize (by simp)
  | cons b l =>
    rw [Deque.Refines.front (l := l ++ [a]) hd', ok_bind,
      hlive.handleEvent (List.mem_cons_of_mem a (List.mem_cons_self ..)), ok_bind,
      hlive.handleEvent (List.mem_cons_self ..), ok_bind]
    exact ⟨_, hd', hperm⟩

theorem handleKey_spec (k : KeyCode) (h : w.wins.Refines l) (hlive : Live ws l)
    (hroom : room < kernelSpace) : Ensures (w.handleKey room ws k) (· = .outOfMemory)
      fun w' => ∃ l', w'.wins.Refines l' ∧ l'.Perm l := by
  have hcycle : Ensures (w.cycleOn room ws k) (· = .outOfMemory)
      fun w' => ∃ l', w'.wins.Refines l' ∧ l'.Perm l :=
    .ite (fun _ => cycle_spec h hlive hroom) fun _ => ⟨l, h, .refl l⟩
  refine hcycle.bind fun w' ⟨l', hw', hl'⟩ => ?_
  have hwins : (w'.setSuper k).wins.Refines l' := by
    unfold setSuper
    split <;> exact hw'
  refine .ite (fun _ => ⟨l', hwins, hl'⟩) fun hempty => ?_
  obtain ⟨a, l', rfl⟩ := cons_of_not_empty hwins hempty
  rw [hwins.front, ok_bind, hlive.handleEvent (hl'.subset (List.mem_cons_self ..)), ok_bind]
  exact ⟨_, hwins, hl'⟩

theorem updateState_returns (e : MouseEvent) (h : w.wins.Refines l) (hlive : Live ws l) :
    ∃ w', w.updateState ws e = .ok w' ∧ w'.wins = w.wins := by
  refine Ensures.returns (E := fun _ => False) ?_ fun _ h => h
  unfold updateState
  refine .ite (fun hsuper => ?_) fun _ => rfl
  obtain ⟨a, l, rfl⟩ := cons_of_not_empty h fun hempty => by
    rw [hempty] at hsuper
    simp at hsuper
  obtain ⟨win, hwin⟩ := hlive a (List.mem_cons_self ..)
  refine .ite (fun _ => ?_) fun _ => .ite (fun _ => ?_) fun _ => .ite (fun _ => rfl) fun _ => rfl
  · rw [h.front, ok_bind, hwin, ok_bind]
    rfl
  · rw [h.front, ok_bind, hwin, ok_bind]
    rfl

theorem target_returns (h : w.wins.Refines l) : ∃ t, w.target = .ok t ∧ ∀ a ∈ t, a ∈ l := by
  refine Ensures.returns (E := fun _ => False) ?_ fun _ h => h
  unfold target
  refine .ite (fun _ => nofun) fun hempty => ?_
  obtain ⟨a, l, rfl⟩ := cons_of_not_empty h hempty
  rw [h.front, ok_bind]
  intro b hb
  split at hb
  · obtain rfl := Option.some.inj hb
    exact List.mem_cons_self ..
  · cases hb

theorem inside_returns (point : Vec2u) (hlive : Live ws l) :
    ∃ t, inside ws point l = .ok t ∧ ∀ a ∈ t, a ∈ l := by
  induction l with
  | nil => exact ⟨none, rfl, nofun⟩
  | cons b l ih =>
    obtain ⟨win, hwin⟩ := hlive b (List.mem_cons_self ..)
    obtain ⟨t, ht, hmem⟩ := ih fun a ha => hlive a (List.mem_cons_of_mem b ha)
    rw [inside, hwin, ok_bind]
    split
    · refine ⟨some b, rfl, ?_⟩
      rintro a ⟨⟩
      exact List.mem_cons_self ..
    · exact ⟨t, ht, fun a ha => List.mem_cons_of_mem b (hmem a ha)⟩

/-- The loop that brings a window to the front ends, and keeps the windows. -/
theorem rotate_spec {d : Deque Nat} {win fuel : Nat} (h : d.Refines l) (hwin : win ∈ l)
    (hfuel : l.idxOf win ≤ fuel) (hroom : room < kernelSpace) :
    Ensures (rotate room win fuel d) (· = .outOfMemory)
      fun d' => ∃ l', d'.Refines l' ∧ l'.Perm l := by
  induction fuel generalizing d l with
  | zero =>
    cases l with
    | nil => cases hwin
    | cons a l =>
      have hfront : a = win := by
        by_contra hne
        rw [List.idxOf_cons_ne _ hne] at hfuel
        omega
      rw [rotate, h.front, ok_bind, if_pos hfront]
      exact ⟨_, h, .refl _⟩
  | succ fuel ih =>
    cases l with
    | nil => cases hwin
    | cons a l =>
      rw [rotate, h.front, ok_bind]
      refine .ite (fun _ => ⟨_, h, .refl _⟩) fun hne => ?_
      have hmem : win ∈ l := (List.mem_cons.mp hwin).resolve_left fun heq => hne heq.symm
      obtain ⟨d', hpop, hpush⟩ := rotate_once h hroom
      rw [hpop, ok_bind]
      refine hpush.bind fun d'' hd'' => ?_
      have hloop := ih hd'' (List.mem_append_left [a] hmem) (by
        rw [List.idxOf_cons_ne _ hne] at hfuel
        rw [List.idxOf_append_of_mem hmem]
        omega)
      exact hloop.mono (fun _ h => h) fun d₃ ⟨l', hd₃, hl'⟩ =>
        ⟨l', hd₃, hl'.trans (List.perm_append_singleton a l)⟩

theorem click_spec (e : MouseEvent) (h : w.wins.Refines l) (hlive : Live ws l)
    (hroom : room < kernelSpace) : Ensures (w.click room ws e) (· = .outOfMemory)
      fun w' => ∃ l', w'.wins.Refines l' ∧ l'.Perm l := by
  obtain ⟨t, ht, hmem⟩ := inside_returns e.pos hlive
  rw [click, h.elements, ok_bind, ht, ok_bind]
  cases t with
  | none => exact ⟨l, h, .refl l⟩
  | some win =>
    have hwin := hmem win rfl
    have hrotate : Ensures (raise room e win w.wins) (· = .outOfMemory)
        fun d => ∃ l', d.Refines l' ∧ l'.Perm l := by
      refine .ite (fun _ => rotate_spec h hwin ?_ hroom) fun _ => ⟨l, h, .refl l⟩
      rw [h.size_eq]
      exact List.idxOf_le_length
    refine hrotate.bind fun d ⟨l', hd, hl'⟩ => ?_
    rw [hlive.handleEvent hwin, ok_bind]
    exact ⟨l', hd, hl'⟩

/-- The loop of `remWin` from a place before the window. -/
theorem find_returns {d : Deque Nat} {win fuel i : Nat} (h : d.Ready l) (hi : i ≤ l.length)
    (hwin : win ∈ l.drop i) (hfuel : l.length - i ≤ fuel) :
    ∃ k, ∃ hk : k < l.length, l[k] = win ∧
      find d win fuel (slot d.capacity d.begIndex i) = .ok (slot d.capacity d.begIndex k) := by
  have hroom := h.room
  induction fuel generalizing i with
  | zero =>
    rw [List.drop_eq_nil_of_le (by omega)] at hwin
    cases hwin
  | succ fuel ih =>
    have hlt : i < l.length := by
      by_contra hge
      rw [List.drop_eq_nil_of_le (by omega)] at hwin
      cases hwin
    have hne : slot d.capacity d.begIndex i ≠ d.endIndex := by
      rw [h.last]
      exact fun heq => Nat.ne_of_lt hlt ((slot_inj (by omega) hroom).mp heq)
    rw [find, if_neg hne, h.object hlt, ok_bind]
    by_cases hfound : l[i] = win
    · exact ⟨i, hlt, hfound, if_pos hfound⟩
    · rw [if_neg hfound, h.incr_slot (by omega)]
      rw [List.drop_eq_getElem_cons hlt, List.mem_cons] at hwin
      exact ih hlt (hwin.resolve_left fun heq => hfound heq.symm) (by omega)

/-- A window of the list is found, and it is the one that is removed. -/
theorem remWin_returns {win : Nat} (h : w.wins.Refines l) (hwin : win ∈ l) :
    ∃ w' l₁ l₂, w.remWin win = .ok w' ∧ l = l₁ ++ win :: l₂ ∧ w'.wins.Refines (l₁ ++ l₂) := by
  have hd := h.ready (List.ne_nil_of_mem hwin)
  have hroom := hd.room
  have hcap := hd.capacity_le
  obtain ⟨k, hk, rfl, hfind⟩ := find_returns hd (Nat.zero_le _) hwin
    (show l.length - 0 ≤ w.wins.capacity by omega)
  rw [slot_zero hd.beg] at hfind
  have hne : slot w.wins.capacity w.wins.begIndex k ≠ w.wins.endIndex := by
    rw [hd.last]
    exact fun heq => Nat.ne_of_lt hk ((slot_inj (by omega) hroom).mp heq)
  have hnext : umod (u64 (slot w.wins.capacity w.wins.begIndex k + 1)) w.wins.capacity =
      .ok (slot w.wins.capacity w.wins.begIndex (k + 1)) := by
    have hslot : slot w.wins.capacity w.wins.begIndex k < w.wins.capacity := slot_lt hd.pos
    rw [umod_eq hd.ne_zero, u64_of_lt (by omega), ← slot_slot]
    rfl
  obtain ⟨d, herase, hd'⟩ := hd.eraseAt id (Nat.le_succ k) hk
  have hiterator (j : Nat) : w.wins.iterator j = slot w.wins.capacity w.wins.begIndex j :=
    if_neg hd.ne_zero
  rw [hiterator, hiterator] at herase
  refine ⟨{ w with wins := d }, l.take k, l.drop (k + 1), ?_, ?_, .inr hd'⟩
  · rw [remWin, hfind, ok_bind, decide_eq_true hne, assert_true, ok_bind, hnext, ok_bind, herase]
    rfl
  · rw [← List.drop_eq_getElem_cons hk, List.take_append_drop]

end Workspace

namespace Desktop

/-- The workspace that a live window names. -/
def own (s : Desktop) (a : Nat) : Option Nat := (s.windows a).map Window.ws

/-- The lists of the workspaces are those of the live windows that name them. -/
structure Listed (s : Desktop) (L : Nat → List Nat) : Prop where
  lists : Lists s.elems s.own L
  ws : ∀ a w, s.windows a = some w → w.ws < Workspace.totalNumber
  active : s.active < Workspace.totalNumber

section Steps

variable {s : Desktop} {L : Nat → List Nat} {room i a : Nat} {w : Window}

theorem own_setWindow {w : Option Window} :
    (s.setWindow a w).own = Function.update s.own a (w.map Window.ws) := by
  funext b
  change (Function.update s.windows a w b).map Window.ws = _
  by_cases hb : b = a
  · rw [hb, Function.update_self, Function.update_self]
  · rw [Function.update_of_ne hb, Function.update_of_ne hb]
    rfl

theorem at_eq_ok : s.windows.at a = .ok w ↔ s.windows a = some w := by
  unfold Windows.at
  cases s.windows a <;> simp

theorem get_eq (hi : i < Workspace.totalNumber) : s.get i = .ok (s.elems i) := by
  rw [get, decide_eq_true hi]
  rfl

theorem Listed.ws_update (h : s.Listed L) {w : Option Window}
    (hw : ∀ v ∈ w, v.ws < Workspace.totalNumber) :
    ∀ b v, Function.update s.windows a w b = some v → v.ws < Workspace.totalNumber := by
  intro b v hb
  by_cases hba : b = a
  · subst hba
    rw [Function.update_self] at hb
    exact hw v hb
  · rw [Function.update_of_ne hba] at hb
    exact h.ws b v hb

/-- A live window that stays on its workspace. -/
theorem Listed.setWindow (h : s.Listed L) {w' : Window} (hw : s.windows a = some w)
    (hws : w'.ws = w.ws) : (s.setWindow a (some w')).Listed L := by
  have hown : (s.setWindow a (some w')).own = s.own := by
    rw [own_setWindow, Option.map_some, hws, Function.update_eq_self_iff, own, hw]
    rfl
  refine ⟨hown ▸ h.lists, h.ws_update ?_, h.active⟩
  rintro v ⟨⟩
  exact hws ▸ h.ws a w hw

theorem Listed.live (h : s.Listed L) : Workspace.Live s.windows (L i) := fun a ha => by
  obtain ⟨w, hw, -⟩ := Option.map_eq_some_iff.mp ((h.lists.mem i a).mp ha)
  exact ⟨w, at_eq_ok.mpr hw⟩

/-- A workspace whose windows are in another order. -/
theorem Listed.setElem (h : s.Listed L) {w : Workspace}
    (hw : ∃ l, w.wins.Refines l ∧ l.Perm (L i)) : ∃ L', (s.setElem i w).Listed L' := by
  obtain ⟨l, hl, hperm⟩ := hw
  exact ⟨_, h.lists.perm hl hperm, h.ws, h.active⟩

theorem Listed.handleMouse (h : s.Listed L) (e : MouseEvent) (hroom : room < kernelSpace) :
    Ensures (s.handleMouse room e i) (· = .outOfMemory) fun s' => ∃ L', s'.Listed L' := by
  obtain ⟨w, hupdate, hwins⟩ := Workspace.updateState_returns e (h.lists.refines i) h.live
  have hw : w.wins.Refines (L i) := hwins ▸ h.lists.refines i
  obtain ⟨t, htarget, hmem⟩ := Workspace.target_returns hw
  rw [Desktop.handleMouse, hupdate, ok_bind, htarget, ok_bind]
  cases t with
  | none =>
    have hclick := Workspace.click_spec (w := { w with state := .NORMAL }) e hw h.live hroom
    exact hclick.bind fun w' hw' => h.setElem hw'
  | some a =>
    obtain ⟨win, hwin⟩ := h.live a (hmem a rfl)
    have hdrag : (w.drag s.screen e win).ws = win.ws := by
      unfold Workspace.drag
      split <;> rfl
    have hset := h.setWindow (at_eq_ok.mp hwin) hdrag
    dsimp only
    rw [hwin, ok_bind]
    refine (Workspace.click_spec e hw hset.live hroom).bind fun w' hw' => ?_
    exact hset.setElem hw'

theorem Listed.handleEventOnMe (h : s.Listed L) (e : Event) (hroom : room < kernelSpace) :
    Ensures (s.handleEventOnMe room e i) (· = .outOfMemory) fun s' => ∃ L', s'.Listed L' := by
  cases e with
  | mouse e => exact h.handleMouse e hroom
  | keyboard k =>
    refine (Workspace.handleKey_spec k (h.lists.refines i) h.live hroom).bind fun w hw => ?_
    exact h.setElem hw

theorem Listed.moveFront (h : s.Listed L) (hi : i < Workspace.totalNumber)
    (hroom : room < kernelSpace) :
    Ensures (s.moveFront room i) (· = .outOfMemory) fun s' => ∃ L', s'.Listed L' := by
  unfold Desktop.moveFront
  refine .ite (fun _ => ⟨L, h⟩) fun hempty => ?_
  have hcurrent := h.lists.refines s.active
  obtain ⟨a, l, hL⟩ := Workspace.cons_of_not_empty hcurrent hempty
  obtain ⟨w, hw⟩ := h.live a (i := s.active) (by rw [hL]; exact List.mem_cons_self ..)
  rw [hL] at hcurrent
  obtain ⟨d, hpop, hd⟩ := hcurrent.popFront
  dsimp only
  rw [hcurrent.front, ok_bind, hpop, ok_bind]
  have hremoved : Lists (s.setWins s.active d).elems (Function.update s.own a none)
    (Function.update L s.active l) := h.lists.remove (l := []) hL (.inr hd)
  have hpush := (hremoved.refines i).pushFront_value a hroom
  refine hpush.bind fun d' hd' => ?_
  have hinserted := hremoved.cons (w := { (s.setWins s.active d).elems i with wins := d' }) (i := i)
    (.inr hd') (Function.update_self ..)
  rw [Function.update_idem] at hinserted
  have hat : ((s.setWins s.active d).setWins i d').windows.at a = .ok w := hw
  rw [hat, ok_bind]
  refine ⟨Function.update (Function.update L s.active l) i (a :: Function.update L s.active l i), ?_,
    h.ws_update ?_, h.active⟩
  · rw [own_setWindow]
    exact hinserted
  · rintro v ⟨⟩
    exact hi

theorem Listed.handleEvent (h : s.Listed L) (e : Event) (hroom : room < kernelSpace) :
    Ensures (s.handleEvent room e) (· = .outOfMemory) fun s' => ∃ L', s'.Listed L' := by
  have honMe (e : Event) : Ensures (do let _ ← s.get s.active; s.handleEventOnMe room e s.active)
      (· = .outOfMemory) fun s' => ∃ L', s'.Listed L' := by
    rw [get_eq h.active, ok_bind]
    exact h.handleEventOnMe e hroom
  cases e with
  | mouse e => exact honMe (.mouse e)
  | keyboard k =>
    refine .ite (fun _ => .ite (fun _ => ?_) fun _ => .ite (fun _ => ⟨L, h.lists, h.ws, h.active⟩)
      fun _ => honMe (.keyboard k)) fun _ => honMe (.keyboard k)
    have hnum (n : Nat) : n % 10 < Workspace.totalNumber := Nat.mod_lt n (by decide)
    exact .ite (fun _ => h.moveFront (hnum _) hroom) fun _ => ⟨L, h.lists, h.ws, hnum _⟩

/-- A new window, which `addWin` finds to be on the screen. -/
theorem Listed.addWin (h : s.Listed L) {offset size : Vec2u} (hi : i < Workspace.totalNumber)
    (ha : a ≠ 0) (hnew : s.windows a = none)
    (hx : (offset.add size).x ≤ s.screen.getSize.x) (hy : (offset.add size).y ≤ s.screen.getSize.y)
    (hroom : room < kernelSpace) :
    Ensures ((s.setWindow a (some (.new offset size))).addWin room i a) (· = .outOfMemory)
      fun s' => ∃ L', s'.Listed L' := by
  have hat : (s.setWindow a (some (.new offset size))).windows.at a = .ok (.new offset size) :=
    at_eq_ok.mpr (Function.update_self ..)
  have hfits : ¬(!(decide ((offset.add size).x ≤ s.screen.getSize.x) &&
      decide ((offset.add size).y ≤ s.screen.getSize.y))) = true := by
    rw [decide_eq_true hx, decide_eq_true hy]
    decide
  rw [Desktop.addWin, get_eq hi, ok_bind, decide_eq_true ha, assert_true, ok_bind, hat, ok_bind]
  refine .ite (fun hfails => absurd hfails hfits) fun _ => ?_
  have hpush := (h.lists.refines i).pushFront_value a hroom
  refine hpush.bind fun d hd => ?_
  have hown : s.own a = none := by
    rw [own, hnew]
    rfl
  have hinserted := h.lists.cons (w := { s.elems i with wins := d }) (.inr hd) hown
  refine ⟨Function.update L i (a :: L i), ?_, ?_, h.active⟩
  · rw [own_setWindow]
    change Lists _ (Function.update (s.setWindow a _).own a _) _
    rw [own_setWindow, Function.update_idem]
    exact hinserted
  · change ∀ b v, Function.update (Function.update s.windows a _) a _ b = some v → _
    rw [Function.update_idem]
    refine h.ws_update ?_
    rintro v ⟨⟩
    exact hi

/-- The assertions of `~Window` and of `remWin` hold. -/
theorem Listed.destroy (h : s.Listed L) (hw : s.windows a = some w) :
    ∃ s' L', s.destroy a = .ok s' ∧ s'.Listed L' := by
  have hlt := h.ws a w hw
  have hws : w.ws ≠ 2 ^ 32 - 1 := fun heq => by
    rw [heq] at hlt
    exact absurd hlt (by decide)
  have hmem : a ∈ L w.ws := (h.lists.mem w.ws a).mpr (by rw [own, hw]; rfl)
  obtain ⟨w', l₁, l₂, hremove, hL, hw'⟩ := Workspace.remWin_returns (h.lists.refines w.ws) hmem
  refine ⟨(s.setElem w.ws w').setWindow a none, Function.update L w.ws (l₁ ++ l₂), ?_, ?_,
    h.ws_update nofun, h.active⟩
  · rw [Desktop.destroy, at_eq_ok.mpr hw, ok_bind, decide_eq_true hws, assert_true, ok_bind,
      get_eq hlt, ok_bind, hremove]
    rfl
  · rw [own_setWindow]
    exact h.lists.remove hL hw'

/-- What a call is admitted for is done, unless no memory is left. -/
theorem Listed.apply (h : s.Listed L) {c : DesktopCall} (ha : s.Admits c)
    (hroom : room < kernelSpace) :
    Ensures (s.apply room c) (· = .outOfMemory) fun r => ∃ L', r.1.Listed L' := by
  have hopen (fd win : Nat) (size offset workspace : UInt64) (hwin : win ≠ 0)
      (hnew : s.windows win = none) : Ensures (s.openWindow room fd win size offset workspace)
      (· = .outOfMemory) fun r => ∃ L', r.1.Listed L' := by
    refine .ite (fun _ => ⟨L, h⟩) fun hx => .ite (fun _ => ⟨L, h⟩) fun hy =>
      .ite (fun _ => ⟨L, h⟩) fun hworkspace => ?_
    have hlex := UInt32.not_lt.mp hx
    have hley := UInt32.not_lt.mp hy
    refine (h.addWin (Nat.lt_of_not_le hworkspace) hwin hnew ?_ ?_ hroom).bind fun s' hs' => hs'
    · rwa [Vec2u.add_comm]
    · rwa [Vec2u.add_comm]
  cases c with
  | sysopenwin fd win size offset workspace => exact hopen _ _ _ _ _ ha.1 ha.2
  | sysopentwin fd win size offset workspace => exact hopen _ _ _ _ _ ha.1 ha.2
  | sysresizewin win size offset =>
    refine .ite (fun _ => ⟨L, h⟩) fun _ => .ite (fun _ => ⟨L, h⟩) fun _ => ?_
    cases win with
    | none => exact ⟨L, h⟩
    | some a =>
      obtain ⟨w, hw⟩ := Option.ne_none_iff_exists'.mp (ha a rfl)
      dsimp only
      rw [at_eq_ok.mpr hw, ok_bind]
      exact ⟨L, h.setWindow hw rfl⟩
  | kernelWindow win offset size i =>
    obtain ⟨hwin, hnew, hi, hwithin⟩ := ha
    have hlt := s.screen.Xsize.toNat_lt
    have hlt' := s.screen.Ysize.toNat_lt
    refine (h.addWin hi hwin hnew ?_ ?_ hroom).bind fun s' hs' => hs'
    · rw [UInt32.le_iff_toNat_le]
      change (offset.x + size.x).toNat ≤ s.screen.Xsize.toUInt32.toNat
      rw [UInt32.toNat_add, UInt16.toNat_toUInt32, Nat.mod_eq_of_lt (by have := hwithin.1; omega)]
      exact hwithin.1
    · rw [UInt32.le_iff_toNat_le]
      change (offset.y + size.y).toNat ≤ s.screen.Ysize.toUInt32.toNat
      rw [UInt32.toNat_add, UInt16.toNat_toUInt32, Nat.mod_eq_of_lt (by have := hwithin.2; omega)]
      exact hwithin.2
  | delete win =>
    obtain ⟨w, hw⟩ := Option.ne_none_iff_exists'.mp ha
    obtain ⟨s', L', hdestroy, hs'⟩ := h.destroy hw
    rw [Desktop.apply, hdestroy]
    exact ⟨L', hs'⟩
  | handleEvent e => exact (h.handleEvent e hroom).bind fun s' hs' => hs'

/-- An event neither makes nor deletes a window. -/
theorem handleEvent_live (e : Event) : Ensures (s.handleEvent room e) (fun _ => True)
    fun s' => ∀ a, (s'.windows a).isSome = (s.windows a).isSome := by
  -- a live window that is changed is still live
  have hset {a : Nat} {w w' : Window} (hw : s.windows.at a = .ok w) (b : Nat) :
      (Function.update s.windows a (some w') b).isSome = (s.windows b).isSome := by
    by_cases hb : b = a
    · rw [hb, Function.update_self, at_eq_ok.mp hw]
      rfl
    · rw [Function.update_of_ne hb]
  have honMe (e : Event) (i : Nat) : Ensures (s.handleEventOnMe room e i) (fun _ => True)
      fun s' => ∀ a, (s'.windows a).isSome = (s.windows a).isSome := by
    cases e with
    | keyboard k => exact (Ensures.trivially _).bind fun w _ a => rfl
    | mouse e =>
      refine (Ensures.trivially _).bind fun w _ => (Ensures.trivially _).bind fun t _ => ?_
      cases t with
      | none => exact (Ensures.trivially _).bind fun w' _ a => rfl
      | some a =>
        cases hw : s.windows.at a with
        | error _ =>
          dsimp only
          rw [hw]
          trivial
        | ok win =>
          dsimp only
          rw [hw, ok_bind]
          exact (Ensures.trivially _).bind fun w' _ b => hset hw b
  have hmove (i : Nat) : Ensures (s.moveFront room i) (fun _ => True)
      fun s' => ∀ a, (s'.windows a).isSome = (s.windows a).isSome := by
    refine .ite (fun _ _ => rfl) fun _ => (Ensures.trivially _).bind fun win _ =>
      (Ensures.trivially _).bind fun d _ => (Ensures.trivially _).bind fun d' _ => ?_
    change Ensures (s.windows.at win >>= _) _ _
    cases hw : s.windows.at win with
    | error _ => trivial
    | ok w => exact fun b => hset hw b
  cases e with
  | mouse e => exact (Ensures.trivially _).bind fun _ _ => honMe (.mouse e) s.active
  | keyboard k =>
    have hkey := (Ensures.trivially (s.get s.active)).bind fun _ _ => honMe (.keyboard k) s.active
    refine .ite (fun _ => .ite (fun _ => ?_) fun _ => .ite (fun _ _ => rfl) fun _ => hkey)
      fun _ => hkey
    exact .ite (fun _ => hmove _) fun _ _ => rfl

end Steps

/-- In every state, each live window is on the list of the workspace that it names, once, and on no
other one, and the lists hold live windows only; the next call that is admitted is done, unless no memory
is left, and an event keeps the live windows. -/
theorem run_listed {screen : Screen} {s : Desktop} (hr : (machine screen).Run (fun _ _ => True) s) :
    ∃ L : Nat → List Nat, (∀ i, (s.elems i).wins.elements = .ok (L i) ∧ (L i).Nodup) ∧
      (∀ a w, s.windows a = some w → w.ws < Workspace.totalNumber ∧ ∀ i, a ∈ L i ↔ i = w.ws) ∧
      (∀ i, ∀ a ∈ L i, s.windows a ≠ none) ∧
      ∀ room c, room < kernelSpace → s.Admits c →
        Ensures (s.apply room c) (· = .outOfMemory) fun r =>
          ∀ e, c = .handleEvent e → ∀ a, (r.1.windows a).isSome = (s.windows a).isSome := by
  have hlisted : ∃ L, s.Listed L := by
    refine hr.invariant (I := fun s => ∃ L, s.Listed L) ?_ fun s s' c hs ha _ happly => ?_
    · rintro s rfl
      refine ⟨fun _ => [], ⟨fun _ => .inl ⟨rfl, rfl⟩, fun _ => List.nodup_nil, fun i a => ?_⟩,
        fun a w hw => ?_, show 0 < Workspace.totalNumber by decide⟩
      · exact iff_of_false List.not_mem_nil fun hown => absurd hown (by simp [own, init])
      · cases hw
    · obtain ⟨L, hs⟩ := hs
      obtain ⟨r, hr, hs'⟩ := bind_eq_ok.mp happly
      obtain rfl := Except.ok.inj hs'
      exact (hs.apply ha.2 ha.1).of_ok hr
  obtain ⟨L, h⟩ := hlisted
  refine ⟨L, fun i => ⟨(h.lists.refines i).elements, h.lists.nodup i⟩, fun a w hw => ⟨h.ws a w hw,
    fun i => ?_⟩, fun i a ha hnone => ?_, fun room c hroom ha => ?_⟩
  · rw [h.lists.mem, own, hw, Option.map_some, Option.some.injEq, eq_comm]
  · rw [h.lists.mem, own, hnone] at ha
    cases ha
  · cases c with
    | handleEvent e =>
      rw [Desktop.apply]
      cases hevent : s.handleEvent room e with
      | error f => exact (h.handleEvent e hroom).of_error hevent
      | ok s' =>
        rintro e' ⟨⟩
        exact (handleEvent_live e).of_ok hevent
    | _ => exact (h.apply ha hroom).mono (fun _ h => h) fun r _ e he => by cases he

/-- Three windows, of which one is sent to another workspace, a click rotates the others, and one is
deleted. -/
theorem run_listed_rotated : ∃ s, (machine ⟨640, 480⟩).Run (fun _ _ => True) s ∧
    decide ((s.elems 0).wins.elements.toOption = some [8192] ∧
      (s.elems 2).wins.elements.toOption = some [16384] ∧ s.windows 12288 = none) = true ∧
    ∃ L : Nat → List Nat, (∀ i, (s.elems i).wins.elements = .ok (L i) ∧ (L i).Nodup) ∧
      ∀ a w, s.windows a = some w → w.ws < Workspace.totalNumber ∧ ∀ i, a ∈ L i ↔ i = w.ws := by
  have hcheck (s : Desktop) (c : Nat × DesktopCall)
      (hc : decide (c.1 < kernelSpace ∧ s.Admits c.2) = true) :
      (machine ⟨640, 480⟩).admits s c ∧ True :=
    ⟨of_decide_eq_true (p := c.1 < kernelSpace ∧ s.Admits c.2) hc, trivial⟩
  obtain ⟨s, hs, hP⟩ := Machine.exists_run (M := machine ⟨640, 480⟩) hcheck rfl
    [(4096, .sysopenwin 3 8192 0x0000006400000064 0 0),
      (4096, .sysopentwin 4 12288 0x0000006400000064 0x000000c8000000c8 0),
      (4096, .sysopenwin 5 16384 0x0000006400000064 0x0000012c0000012c 0),
      (4096, .handleEvent (.keyboard ⟨true, false, true, false, 60, false⟩)),
      (4096, .handleEvent (.mouse ⟨20, 20, 1, 1⟩)), (4096, .delete 12288)]
    (P := fun s => decide ((s.elems 0).wins.elements.toOption = some [8192] ∧
      (s.elems 2).wins.elements.toOption = some [16384] ∧ s.windows 12288 = none)) (by decide +kernel)
  obtain ⟨L, hL, hlive, -⟩ := run_listed hs
  exact ⟨s, hs, hP, L, hL, hlive⟩

end Desktop

end SupOS.Video
