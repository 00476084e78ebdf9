import SupOS.Pipes.Sleepers
import SupOS.Pipes.Fifo

/-! What a command does to the pipes, and what is known of them in every run. -/

namespace SupOS

open Lib

/-- What is left of a pipe that has lost an end has its bytes. -/
theorem PipeStream.dropEnd_keeps {ps ps' : PipeStream} {side : PipeEnd}
    (h : ps.dropEnd side = some ps') : ps'.deque = ps.deque ∧ ∀ o ∈ ps'.out, o ∈ ps.out := by
  have hdecr : ∀ {x y : PipeStream}, x.decrRef = some y → y.deque = x.deque ∧ y.out = x.out := by
    intro x y hxy
    unfold decrRef at hxy
    dsimp only at hxy
    split at hxy
    · cases hxy
    · obtain rfl := Option.some.inj hxy
      exact ⟨rfl, rfl⟩
  cases side with
  | out =>
    obtain ⟨ps₁, hps, rfl⟩ := Option.map_eq_some_iff.mp h
    exact ⟨(hdecr hps).1, fun o ho => by cases ho⟩
  | inp =>
    obtain ⟨hdeque, hout⟩ := hdecr h
    exact ⟨hdeque, fun o ho => hout ▸ ho⟩

namespace Pipes

open Tasks (put put_self put_of_ne)

variable {s s' s'' : Pipes} {c : Command} {t p q fd count u x o : Nat} {a : Answer}
  {side : PipeEnd}

/-- The pipes but for those that get bytes. -/
structure Carried (s s' : Pipes) : Prop where
  ends : ∀ o e, s'.ends o = some e →
    s.ends o = some e ∨ e.2 = s.kernel.fds.owners.made ∧ ∀ ps, s'.pipes e.2 = some ps → ps.deque = []
  pipes : ∀ q ps', s'.pipes q = some ps' → ps'.deque = [] ∧ (∀ o ∈ ps'.out, o = q) ∨
    ∃ ps, s.pipes q = some ps ∧ ps'.deque <:+ ps.deque ∧ ∀ o ∈ ps'.out, o ∈ ps.out

theorem Carried.refl (s : Pipes) : Carried s s :=
  ⟨fun _ _ h => .inl h, fun _ ps h => .inr ⟨ps, h, List.suffix_rfl, fun _ ho => ho⟩⟩

theorem Carried.kernel (h : Carried s s') (k : Kernel) : Carried s { s' with kernel := k } :=
  ⟨h.ends, h.pipes⟩

theorem Carried.counts (h : Carried s s') (f : Nat → Nat) : Carried s { s' with counts := f } :=
  ⟨h.ends, h.pipes⟩

theorem consume_carried {mapped : Nat} (hs : s.consume mapped t p fd count a = .ok s') :
    Carried s s' ∧ s'.kernel = s.kernel ∧ s'.ends = s.ends ∧ s'.counts = s.counts := by
  unfold consume at hs
  split at hs
  · obtain rfl := Except.ok.inj hs
    exact ⟨.refl s, rfl, rfl, rfl⟩
  · rename_i q _
    obtain ⟨ps, hpipe, hs⟩ := bind_eq_ok.mp hs
    have hps := Inv.pipe_eq hpipe
    dsimp only at hs
    split at hs
    · obtain rfl := Except.ok.inj hs
      exact ⟨.refl s, rfl, rfl, rfl⟩
    split at hs
    · cases hs
    obtain rfl := pure_eq_ok.mp hs
    refine ⟨⟨fun _ _ h => .inl h, fun q' ps' hps' => .inr ?_⟩, rfl, rfl, rfl⟩
    by_cases hq : q' = q
    · subst hq
      obtain rfl := Option.some.inj ((put_self _ _ _).symm.trans hps')
      exact ⟨ps, hps, List.drop_suffix count ps.deque, fun _ ho => ho⟩
    · exact ⟨ps', (put_of_ne _ _ hq).symm.trans hps', List.suffix_rfl, fun _ ho => ho⟩

theorem Carried.destroy (h : Carried s s') (o : Nat) : Carried s (s'.destroy o) := by
  unfold Pipes.destroy
  cases ho : s'.ends o with
  | none => exact h
  | some e =>
    obtain ⟨side, q⟩ := e
    -- What is left of the pipe is a pipe from before.
    have hleft : ∀ q' ps', put s'.pipes q ((s'.pipes q).bind (·.dropEnd side)) q' = some ps' →
        ∃ ps, s'.pipes q' = some ps ∧ ps'.deque = ps.deque ∧ ∀ o ∈ ps'.out, o ∈ ps.out := by
      intro q' ps' hps'
      by_cases hq : q' = q
      · subst hq
        rw [put_self] at hps'
        obtain ⟨ps, hps, hdrop⟩ := Option.bind_eq_some_iff.mp hps'
        exact ⟨ps, hps, PipeStream.dropEnd_keeps hdrop⟩
      · exact ⟨ps', (put_of_ne _ _ hq).symm.trans hps', rfl, fun _ ho => ho⟩
    constructor
    · intro o' e' he'
      dsimp only at he'
      have hold : s'.ends o' = some e' := by
        by_cases hoo : o' = o
        · subst hoo
          simp at he'
        · exact (put_of_ne _ _ hoo).symm.trans he'
      rcases h.ends o' e' hold with hbefore | ⟨hmade, hempty⟩
      · exact .inl hbefore
      · refine .inr ⟨hmade, fun ps' hps' => ?_⟩
        obtain ⟨ps, hps, hdeque, -⟩ := hleft _ ps' hps'
        rw [hdeque]
        exact hempty ps hps
    · intro q' ps' hps'
      obtain ⟨ps, hps, hdeque, hout⟩ := hleft q' ps' hps'
      rcases h.pipes q' ps hps with ⟨hnil, hself⟩ | ⟨ps₀, hps₀, hsuffix, hout₀⟩
      · exact .inl ⟨hdeque.trans hnil, fun o' ho' => hself o' (hout o' ho')⟩
      · exact .inr ⟨ps₀, hps₀, hdeque ▸ hsuffix, fun o' ho' => hout₀ o' (hout o' ho')⟩

theorem Carried.settle {k : Kernel} (h : Carried s { s' with kernel := k }) :
    Carried s (s'.settle k) := by
  unfold Pipes.settle
  generalize { s' with kernel := k } = s' at h
  generalize k.fds.owners.deleted.reverse = l
  induction l generalizing s' with
  | nil => exact h
  | cons o l ih => exact ih _ (h.destroy o)

theorem addPipe_carried (s : Pipes) : Carried s s.addPipe := by
  have hnew : ∀ ps, s.addPipe.pipes s.kernel.fds.owners.made = some ps →
      ps = .new s.kernel.fds.owners.made := fun ps hps =>
    (Option.some.inj ((put_self _ _ _).symm.trans hps)).symm
  constructor
  · intro o e he
    by_cases h1 : o = s.kernel.fds.owners.made + 1
    · subst h1
      obtain rfl := Option.some.inj ((put_self _ _ _).symm.trans he)
      exact .inr ⟨rfl, fun ps hps => by rw [hnew ps hps]; rfl⟩
    · have he := (put_of_ne _ _ h1).symm.trans he
      by_cases h2 : o = s.kernel.fds.owners.made
      · subst h2
        obtain rfl := Option.some.inj ((put_self _ _ _).symm.trans he)
        exact .inr ⟨rfl, fun ps hps => by rw [hnew ps hps]; rfl⟩
      · exact .inl ((put_of_ne _ _ h2).symm.trans he)
  · intro q ps hps
    by_cases hq : q = s.kernel.fds.owners.made
    · subst hq
      obtain rfl := hnew ps hps
      exact .inl ⟨rfl, fun o ho => (Option.some.inj ho).symm⟩
    · exact .inr ⟨ps, (put_of_ne _ _ hq).symm.trans hps, List.suffix_rfl, fun _ ho => ho⟩

/-- A write, which gives its pipe bytes and wakes who waits for them. -/
structure Written (s : Pipes) (q : Nat) (s' : Pipes) : Prop where
  ends : s'.ends = s.ends
  counts : s'.counts = s.counts
  writer : ∃ o, s.ends o = some (.inp, q)
  pipes : ∃ ps buf, s.pipes q = some ps ∧ ps.deque.length + buf.length < kernelSpace ∧
    s'.pipes = put s.pipes q (some { ps with deque := ps.deque ++ buf }) ∧
    s'.kernel = ps.out.elim s.kernel fun o => { s.kernel with reads := s.kernel.reads.free o }

/-- What a command does. -/
inductive Does (s : Pipes) (c : Command) (s' : Pipes) : Prop
  | read {fd count t : Nat} {th : Thread} {a : Answer} (hc : c.call = .read fd count)
    (hcurrent : s.kernel.tasks.current = some t) (hth : s.kernel.tasks.threadAt t = some th)
    (ha : s.answer th.process fd count c.answer = .ok a)
    (hk : s.kernel.apply ⟨c.room, a, .read fd⟩ = .ok s'.kernel) (hp : Carried s s')
    (hends : s'.ends = s.ends) (hcounts : s'.counts = fun u => if u = t then count else s.counts u)
  | retry {t p fd : Nat} {a : Answer} (hc : c.call = .task .run)
    (hretried : s.kernel.retried = some (t, p, fd))
    (ha : s.answer p fd (s.counts t) c.answer = .ok a)
    (hk : s.kernel.apply ⟨c.room, a, .task .run⟩ = .ok s'.kernel) (hp : Carried s s')
    (hends : s'.ends = s.ends) (hcounts : s'.counts = s.counts)
  | write {fd q : Nat} {buf : List UInt8} (hc : c.call = .write fd buf) (hw : Written s q s')
  | refused {fd : Nat} {buf : List UInt8} (hc : c.call = .write fd buf) (hs : s' = s)
  | other (hread : ∀ fd count, c.call ≠ .read fd count) (hwrite : ∀ fd buf, c.call ≠ .write fd buf)
    (hrun : c.call = .task .run → s.kernel.retried = none)
    (hk : s.kernel.apply ⟨c.room, c.answer, c.call.toKernel⟩ = .ok s'.kernel) (hp : Carried s s')
    (hends : ∀ o ∉ s'.kernel.fds.owners.deleted, o < s.kernel.fds.owners.made →
      s'.ends o = s.ends o)
    (hcounts : s'.counts = s.counts)

theorem destroy_ends (s : Pipes) {o o' : Nat} (h : o ≠ o') : (s.destroy o').ends o = s.ends o := by
  unfold Pipes.destroy
  split
  · rfl
  · exact put_of_ne _ _ h

theorem settle_ends (s : Pipes) {k : Kernel} (h : o ∉ k.fds.owners.deleted) :
    (s.settle k).ends o = s.ends o := by
  have hfold : ∀ (l : List Nat) (s : Pipes), o ∉ l → (l.foldl destroy s).ends o = s.ends o := by
    intro l
    induction l with
    | nil => exact fun s _ => rfl
    | cons o' l ih =>
      intro s hl
      rw [List.mem_cons, not_or] at hl
      exact (ih (s.destroy o') hl.2).trans (destroy_ends s hl.1)
  exact hfold _ { s with kernel := k } (by simpa using h)

theorem addPipe_ends (s : Pipes) (h : o < s.kernel.fds.owners.made) : s.addPipe.ends o = s.ends o :=
  (put_of_ne _ _ (by omega)).trans (put_of_ne _ _ (by omega))

theorem destroy_kernel (s : Pipes) (o : Nat) :
    (s.destroy o).kernel = s.kernel ∧ (s.destroy o).counts = s.counts := by
  unfold Pipes.destroy
  split <;> exact ⟨rfl, rfl⟩

theorem settle_kernel (s : Pipes) (k : Kernel) :
    (s.settle k).kernel = k ∧ (s.settle k).counts = s.counts := by
  have hfold : ∀ (l : List Nat) (s : Pipes),
      (l.foldl destroy s).kernel = s.kernel ∧ (l.foldl destroy s).counts = s.counts := by
    intro l
    induction l with
    | nil => exact fun s => ⟨rfl, rfl⟩
    | cons o l ih =>
      intro s
      obtain ⟨hkernel, hcounts⟩ := ih (s.destroy o)
      exact ⟨hkernel.trans (destroy_kernel s o).1, hcounts.trans (destroy_kernel s o).2⟩
  exact hfold _ { s with kernel := k }

theorem accept_written {q : Nat} {buf : List UInt8} (ho : s.ends o = some (.inp, q))
    (hs : s.accept c q buf = .ok s') : Written s q s' := by
  obtain ⟨ps, hpipe, hs⟩ := bind_eq_ok.mp hs
  have hps := Inv.pipe_eq hpipe
  split at hs
  · cases hs
  split at hs
  · cases hs
  rename_i hroom
  dsimp only [PipeStream.write] at hs
  cases hout : ps.out with
  | none =>
    simp only [hout] at hs
    obtain rfl := Except.ok.inj hs
    exact ⟨rfl, rfl, ⟨o, ho⟩, ps, buf, hps, by omega, by rw [hout], by rw [hout]; rfl⟩
  | some o' =>
    simp only [hout] at hs
    obtain ⟨kernel, hkernel, hs⟩ := bind_eq_ok.mp hs
    obtain rfl := pure_eq_ok.mp hs
    obtain rfl := Except.ok.inj hkernel
    exact ⟨rfl, rfl, ⟨o, ho⟩, ps, buf, hps, by omega, by rw [hout], by rw [hout]; rfl⟩

theorem syswrite_written {buf : List UInt8} (hs : s.syswrite c fd buf = .ok s') :
    s' = s ∨ ∃ q, Written s q s' := by
  obtain ⟨t, -, hs⟩ := bind_eq_ok.mp hs
  obtain ⟨th, -, hs⟩ := bind_eq_ok.mp hs
  split at hs
  · exact .inl (Except.ok.inj hs).symm
  obtain ⟨v, -, hs⟩ := bind_eq_ok.mp hs
  split at hs
  · exact .inl (Except.ok.inj hs).symm
  split at hs
  · exact .inl (Except.ok.inj hs).symm
  split at hs
  · cases hs
  split at hs
  · cases hs
  split at hs
  · rename_i desc _ _ _ o _ _ side q hend
    split at hs
    · rename_i hcheck
      cases side with
      | inp => exact .inr ⟨q, accept_written hend hs⟩
      | out =>
        -- The reading end is no stream to write to.
        have hmask : PipeEnd.out.getMask &&& Stream.WRITABLE = 0 := by decide
        simp [FileDescriptor.check, Nat.and_assoc, hmask] at hcheck
    · exact .inl (Except.ok.inj hs).symm
  · exact .inl (Except.ok.inj hs).symm

theorem apply_does (hs : s.apply c = .ok s') : Does s c s' := by
  obtain ⟨room, answer, mapped, call⟩ := c
  have hsettle : ∀ {k : Kernel.Command} {s₁ : Pipes},
      (do let kernel ← s.kernel.apply k; return s₁.settle kernel) = .ok s' → Carried s s₁ →
        s₁.counts = s.counts →
        (∀ o, o < s.kernel.fds.owners.made → s₁.ends o = s.ends o) →
        s.kernel.apply k = .ok s'.kernel ∧ Carried s s' ∧
          (∀ o ∉ s'.kernel.fds.owners.deleted, o < s.kernel.fds.owners.made →
            s'.ends o = s.ends o) ∧ s'.counts = s.counts := by
    intro kc s₁ hs hp hcounts hends
    obtain ⟨kernel, hk, hs⟩ := bind_eq_ok.mp hs
    obtain rfl := pure_eq_ok.mp hs
    obtain ⟨hkernel, hsame⟩ := settle_kernel s₁ kernel
    refine ⟨hkernel.symm ▸ hk, (hp.kernel kernel).settle, fun o ho hlt => ?_, hsame.trans hcounts⟩
    rw [hkernel] at ho
    exact (settle_ends s₁ ho).trans (hends o hlt)
  cases call with
  | read fd count =>
    obtain ⟨t, henter, hs⟩ := bind_eq_ok.mp hs
    obtain ⟨th, hthread, hs⟩ := bind_eq_ok.mp hs
    obtain ⟨a, ha, hs⟩ := bind_eq_ok.mp hs
    obtain ⟨s₁, hconsume, hs⟩ := bind_eq_ok.mp hs
    obtain ⟨kernel, hk, hs⟩ := bind_eq_ok.mp hs
    obtain rfl := pure_eq_ok.mp hs
    obtain ⟨hp, hkernel, hends, hcounts⟩ := consume_carried hconsume
    rw [hkernel] at hk
    exact .read rfl (Tasks.enterSys_spec.of_ok henter) (Tasks.thread_eq_ok hthread) ha hk
      ((hp.kernel kernel).counts _) hends (by rw [hcounts])
  | write fd buf =>
    rcases syswrite_written hs with hsame | ⟨q, hw⟩
    · exact .refused rfl hsame
    · exact .write rfl hw
  | free o =>
    obtain ⟨kernel, hk, hs⟩ := bind_eq_ok.mp hs
    obtain rfl := pure_eq_ok.mp hs
    exact .other (fun _ _ => by simp) (fun _ _ => by simp) (fun h => by cases h) hk
      ((Carried.refl s).kernel kernel) (fun _ _ _ => rfl) rfl
  | table call =>
    obtain ⟨kernel, hk, hs⟩ := bind_eq_ok.mp hs
    have hp : Carried s (if call = .syspipe then s.addPipe else s) ∧
        (if call = .syspipe then s.addPipe else s).counts = s.counts ∧
        ∀ o, o < s.kernel.fds.owners.made →
          (if call = .syspipe then s.addPipe else s).ends o = s.ends o := by
      split
      · exact ⟨addPipe_carried s, rfl, fun o ho => addPipe_ends s ho⟩
      · exact ⟨.refl s, rfl, fun _ _ => rfl⟩
    obtain ⟨hcarried, hcounts, hends⟩ := hp
    obtain ⟨hk, hcarried, hends, hcounts⟩ := hsettle (k := ⟨room, answer, .table call⟩)
      (by rw [hk]; exact hs) hcarried hcounts hends
    exact .other (fun _ _ => by simp) (fun _ _ => by simp) (fun h => by cases h) hk hcarried hends
      hcounts
  | task task =>
    cases task with
    | run =>
      unfold Pipes.apply at hs
      dsimp only at hs
      split at hs
      · rename_i hnone
        obtain ⟨hk, hp, hends, hcounts⟩ := hsettle hs (.refl s) rfl fun _ _ => rfl
        exact .other (fun _ _ => by simp) (fun _ _ => by simp) (fun _ => hnone) hk hp hends hcounts
      · rename_i t p fd hretried
        obtain ⟨a, ha, hs⟩ := bind_eq_ok.mp hs
        obtain ⟨s₁, hconsume, hs⟩ := bind_eq_ok.mp hs
        obtain ⟨kernel, hk, hs⟩ := bind_eq_ok.mp hs
        obtain rfl := pure_eq_ok.mp hs
        obtain ⟨hp, hkernel, hends, hcounts⟩ := consume_carried hconsume
        rw [hkernel] at hk
        exact .retry rfl hretried ha hk (hp.kernel kernel) hends hcounts
    | _ =>
      obtain ⟨hk, hp, hends, hcounts⟩ := hsettle hs (.refl s) rfl fun _ _ => rfl
      exact .other (fun _ _ => by simp) (fun _ _ => by simp) (fun h => by cases h) hk hp hends
        hcounts

/-! ### Invariants -/

/-- What is known of the kernel and of the pipes. -/
structure Sound (s : Pipes) : Prop where
  kernel : s.kernel.Inv
  pipes : s.Inv
  bounded : ∀ q ps, s.pipes q = some ps → ps.deque.length < kernelSpace
  linked : ∀ q ps, s.pipes q = some ps → ∀ o ∈ ps.out, o = q

theorem Sound.carried (h : Sound s) (hp : Carried s s') :
    (∀ q ps, s'.pipes q = some ps → ps.deque.length < kernelSpace) ∧
      ∀ q ps, s'.pipes q = some ps → ∀ o ∈ ps.out, o = q := by
  constructor
  · intro q ps hps
    rcases hp.pipes q ps hps with ⟨hnil, -⟩ | ⟨ps₀, hps₀, hsuffix, -⟩
    · rw [hnil]
      decide
    · exact hsuffix.length_le.trans_lt (h.bounded q ps₀ hps₀)
  · intro q ps hps o ho
    rcases hp.pipes q ps hps with ⟨-, hself⟩ | ⟨ps₀, hps₀, -, hout⟩
    · exact hself o ho
    · exact h.linked q ps₀ hps₀ o (hout o ho)

theorem Sound.written (h : Sound s) (hw : Written s q s') : s'.kernel.Inv ∧
    (∀ q ps, s'.pipes q = some ps → ps.deque.length < kernelSpace) ∧
      ∀ q ps, s'.pipes q = some ps → ∀ o ∈ ps.out, o = q := by
  obtain ⟨ps, buf, hps, hroom, hput, hkernel⟩ := hw.pipes
  refine ⟨?_, fun q' ps' hps' => ?_, fun q' ps' hps' o ho => ?_⟩
  · rw [hkernel]
    cases ps.out with
    | none => exact h.kernel
    | some o => exact Kernel.free_inv h.kernel o
  all_goals
    rw [hput] at hps'
    by_cases hq : q' = q
  · subst hq
    obtain rfl := Option.some.inj ((put_self _ _ _).symm.trans hps')
    simpa using hroom
  · exact h.bounded q' ps' ((put_of_ne _ _ hq).symm.trans hps')
  · subst hq
    obtain rfl := Option.some.inj ((put_self _ _ _).symm.trans hps')
    exact h.linked q' ps hps o ho
  · exact h.linked q' ps' ((put_of_ne _ _ hq).symm.trans hps') o ho

theorem Sound.step (h : Sound s) (ha : s.Admits c) (hs : s.apply c = .ok s') : Sound s' := by
  have hpipes : s'.Inv := h.pipes.step.of_ok hs
  have hkept : ∀ {kc : Kernel.Command}, s.kernel.apply kc = .ok s'.kernel → s.kernel.Admits kc →
      Carried s s' → Sound s' := fun hk ha hp =>
    ⟨(Kernel.apply_inv h.kernel ha hk).1, hpipes, (h.carried hp).1, (h.carried hp).2⟩
  have hadmits := ha.1
  cases apply_does hs with
  | read hc _ _ _ hk hp =>
    rw [hc] at hadmits
    exact hkept hk hadmits hp
  | retry hc _ _ hk hp =>
    rw [hc] at hadmits
    exact hkept hk hadmits hp
  | other _ _ _ hk hp => exact hkept hk hadmits hp
  | refused _ hsame => exact hsame ▸ h
  | write _ hw =>
    obtain ⟨hkernel, hbounded, hlinked⟩ := h.written hw
    exact ⟨hkernel, hpipes, hbounded, hlinked⟩

/-- The object that a descriptor refers to. -/
def object (s : Pipes) (p fd : Nat) : Option Nat := (s.descriptor p fd).bind (·.owners)

theorem endOf_object (s : Pipes) (p fd : Nat) : s.endOf p fd = (s.object p fd).bind s.ends := by
  unfold endOf object
  cases s.descriptor p fd with
  | none => rfl
  | some desc => rfl

/-- The answer of a pipe to a read that blocks. -/
theorem Sound.answer_blocks (h : Sound s) {a' : Answer} (hend : s.endOf p fd = some (.out, q))
    (ha : s.answer p fd count a = .ok a') (hb : s.kernel.nbread p fd' a' = .ok (errno EBLOCK)) :
    ∃ ps, s.pipes q = some ps ∧ (ps.deque = [] ∨ count = 0) ∧ ps.eof = false := by
  unfold answer at ha
  simp only [hend] at ha
  obtain ⟨ps, hpipe, ha⟩ := bind_eq_ok.mp ha
  obtain rfl := pure_eq_ok.mp ha
  have hps := Inv.pipe_eq hpipe
  have hlt := h.bounded q ps hps
  have hle : (ps.read count).1.length ≤ ps.deque.length := List.length_take_le' _ _
  obtain ⟨hbytes, heof⟩ := Kernel.nbread_blocks hb (show (ps.read count).1.length < _ by omega)
  refine ⟨ps, hps, ?_, heof⟩
  have hnil : ps.deque.take count = [] := List.length_eq_zero_iff.mp hbytes
  exact (List.take_eq_nil_iff.mp hnil).symm

end Pipes

end SupOS
