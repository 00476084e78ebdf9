import Mathlib.Data.Set.Insert
import Mathlib.Data.List.Basic

/-! Directories that name files and each other: each has an entry for itself, and each but the root one
for the directory that names it. -/

namespace Lib

variable {δ ν : Type}

/-- An entry of a directory: a name for a node. -/
structure Naming (δ ν : Type) where
  dir : δ
  name : ν
  node : δ
  deriving DecidableEq, Repr

/-- The name of a directory for itself, and that for the directory above. -/
structure Dots (ν : Type) where
  self : ν
  up : ν
  ne : self ≠ up

/-- Any other name. -/
def Dots.Proper (D : Dots ν) (n : ν) : Prop := n ≠ D.self ∧ n ≠ D.up

instance [DecidableEq ν] (D : Dots ν) (n : ν) : Decidable (D.Proper n) :=
  inferInstanceAs (Decidable (_ ∧ _))

/-- The entries of a tree of directories. -/
structure NameTree (D : Dots ν) (isDir : δ → Prop) (root : δ) (S : Set (Naming δ ν)) : Prop where
  /-- A name stands once in a directory. -/
  keys : ∀ e ∈ S, ∀ e' ∈ S, e.dir = e'.dir → e.name = e'.name → e = e'
  dirs : ∀ e ∈ S, isDir e.dir ∧ ⟨e.dir, D.self, e.dir⟩ ∈ S
  self : ∀ e ∈ S, e.name = D.self → e.node = e.dir
  /-- No directory is in itself. -/
  apart : ∀ e ∈ S, D.Proper e.name → e.node ≠ e.dir
  entered : ∀ e ∈ S, isDir e.node → ⟨e.node, D.self, e.node⟩ ∈ S
  /-- A directory names the one that it is in. -/
  above : ∀ e ∈ S, D.Proper e.name → isDir e.node → ⟨e.node, D.up, e.dir⟩ ∈ S
  /-- A directory has one name. -/
  once : ∀ e ∈ S, ∀ e' ∈ S, D.Proper e.name → D.Proper e'.name → isDir e.node → e.node = e'.node → e = e'
  below : ∀ e ∈ S, e.name = D.up → (e.dir = root ∧ e.node = root) ∨
    ∃ e' ∈ S, D.Proper e'.name ∧ e'.dir = e.node ∧ e'.node = e.dir

namespace NameTree

variable {D : Dots ν} {isDir isDir' : δ → Prop} {root c d d' i : δ} {n n' : ν} {S : Set (Naming δ ν)}
  {e : Naming δ ν}

theorem congr (h : NameTree D isDir root S) (hdir : ∀ e ∈ S, isDir' e.dir ↔ isDir e.dir)
    (hnode : ∀ e ∈ S, isDir' e.node ↔ isDir e.node) : NameTree D isDir' root S where
  keys := h.keys
  dirs e he := ⟨(hdir e he).mpr (h.dirs e he).1, (h.dirs e he).2⟩
  self := h.self
  apart := h.apart
  entered e he hd := h.entered e he ((hnode e he).mp hd)
  above e he hp hd := h.above e he hp ((hnode e he).mp hd)
  once e he e' he' hp hp' hd := h.once e he e' he' hp hp' ((hnode e he).mp hd)
  below := h.below

/-- A name for a file. -/
theorem insertFile (h : NameTree D isDir root S) (hd : ⟨d, D.self, d⟩ ∈ S)
    (hfresh : ∀ e ∈ S, e.dir = d → e.name ≠ n) (hn : D.Proper n) (hi : ¬isDir i) :
    NameTree D isDir root (insert ⟨d, n, i⟩ S) where
  keys := by
    rintro e (rfl | he) e' (rfl | he') hdir hname
    · rfl
    · exact absurd hname.symm (hfresh e' he' hdir.symm)
    · exact absurd hname (hfresh e he hdir)
    · exact h.keys e he e' he' hdir hname
  dirs := by
    rintro e (rfl | he)
    · exact ⟨(h.dirs _ hd).1, .inr hd⟩
    · exact ⟨(h.dirs e he).1, .inr (h.dirs e he).2⟩
  self := by
    rintro e (rfl | he) hname
    · exact absurd hname hn.1
    · exact h.self e he hname
  apart := by
    rintro e (rfl | he) hp
    · exact fun heq => hi ((congrArg isDir heq).mpr (h.dirs _ hd).1)
    · exact h.apart e he hp
  entered := by
    rintro e (rfl | he) hdir
    · exact absurd hdir hi
    · exact .inr (h.entered e he hdir)
  above := by
    rintro e (rfl | he) hp hdir
    · exact absurd hdir hi
    · exact .inr (h.above e he hp hdir)
  once := by
    rintro e (rfl | he) e' (rfl | he') hp hp' hdir hnode
    · rfl
    · exact absurd hdir hi
    · exact absurd ((congrArg isDir hnode).mp hdir) hi
    · exact h.once e he e' he' hp hp' hdir hnode
  below := by
    rintro e (rfl | he) hname
    · exact absurd hname hn.2
    · rcases h.below e he hname with hroot | ⟨e', he', hrest⟩
      · exact .inl hroot
      · exact .inr ⟨e', .inr he', hrest⟩

/-- A name of a file goes. -/
theorem eraseFile (h : NameTree D isDir root S) (he : D.Proper e.name) (hi : ¬isDir e.node) :
    NameTree D isDir root (S \ {e}) := by
  have hdots : ∀ {d n i}, ⟨d, n, i⟩ ∈ S → ¬D.Proper n → (⟨d, n, i⟩ : Naming δ ν) ∈ S \ {e} :=
    fun hmem hnot => ⟨hmem, fun heq => hnot (by rw [← Set.mem_singleton_iff.mp heq] at he; exact he)⟩
  exact {
    keys := fun e he e' he' => h.keys e he.1 e' he'.1
    dirs := fun e he => ⟨(h.dirs e he.1).1, hdots (h.dirs e he.1).2 fun hp => hp.1 rfl⟩
    self := fun e he => h.self e he.1
    apart := fun e he => h.apart e he.1
    entered := fun e he hdir => hdots (h.entered e he.1 hdir) fun hp => hp.1 rfl
    above := fun e he hp hdir => hdots (h.above e he.1 hp hdir) fun hp => hp.2 rfl
    once := fun e he e' he' => h.once e he.1 e' he'.1
    below := fun e' he' hname => by
      rcases h.below e' he'.1 hname with hroot | ⟨e'', he'', hp, hdir, hnode⟩
      · exact .inl hroot
      · refine .inr ⟨e'', ⟨he'', ?_⟩, hp, hdir, hnode⟩
        rintro rfl
        exact hi (hnode ▸ (h.dirs e' he'.1).1) }

/-- A new directory, without a name yet. -/
theorem insertSelf (h : NameTree D isDir root S) (hc : isDir c)
    (hnew : ∀ e ∈ S, e.dir ≠ c ∧ e.node ≠ c) : NameTree D isDir root (insert ⟨c, D.self, c⟩ S) where
  keys := by
    rintro e (rfl | he) e' (rfl | he') hdir hname
    · rfl
    · exact absurd hdir.symm (hnew e' he').1
    · exact absurd hdir (hnew e he).1
    · exact h.keys e he e' he' hdir hname
  dirs := by
    rintro e (rfl | he)
    · exact ⟨hc, .inl rfl⟩
    · exact ⟨(h.dirs e he).1, .inr (h.dirs e he).2⟩
  self := by
    rintro e (rfl | he) hname
    · rfl
    · exact h.self e he hname
  apart := by
    rintro e (rfl | he) hp
    · exact absurd rfl hp.1
    · exact h.apart e he hp
  entered := by
    rintro e (rfl | he) hdir
    · exact .inl rfl
    · exact .inr (h.entered e he hdir)
  above := by
    rintro e (rfl | he) hp hdir
    · exact absurd rfl hp.1
    · exact .inr (h.above e he hp hdir)
  once := by
    rintro e (rfl | he) e' (rfl | he') hp hp' hdir hnode
    · rfl
    · exact absurd rfl hp.1
    · exact absurd rfl hp'.1
    · exact h.once e he e' he' hp hp' hdir hnode
  below := by
    rintro e (rfl | he) hname
    · exact absurd hname D.ne
    · rcases h.below e he hname with hroot | ⟨e', he', hrest⟩
      · exact .inl hroot
      · exact .inr ⟨e', .inr he', hrest⟩

/-- A name for a directory that has none. -/
theorem attach (h : NameTree D isDir root S) (hd : ⟨d, D.self, d⟩ ∈ S)
    (hdc : d ≠ c) (hfresh : ∀ e ∈ S, e.dir = d → e.name ≠ n) (hn : D.Proper n) (hc : ⟨c, D.self, c⟩ ∈ S)
    (hnone : ∀ e ∈ S, D.Proper e.name → e.node ≠ c) (hup : ∀ e ∈ S, e.dir = c → e.name ≠ D.up) :
    NameTree D isDir root (insert ⟨d, n, c⟩ (insert ⟨c, D.up, d⟩ S)) where
  keys := by
    rintro e (rfl | rfl | he) e' (rfl | rfl | he') hdir hname
    · rfl
    · exact absurd hname hn.2
    · exact absurd hname.symm (hfresh e' he' hdir.symm)
    · exact absurd hname.symm hn.2
    · rfl
    · exact absurd hname.symm (hup e' he' hdir.symm)
    · exact absurd hname (hfresh e he hdir)
    · exact absurd hname (hup e he hdir)
    · exact h.keys e he e' he' hdir hname
  dirs := by
    rintro e (rfl | rfl | he)
    · exact ⟨(h.dirs _ hd).1, .inr (.inr hd)⟩
    · exact ⟨(h.dirs _ hc).1, .inr (.inr hc)⟩
    · exact ⟨(h.dirs e he).1, .inr (.inr (h.dirs e he).2)⟩
  self := by
    rintro e (rfl | rfl | he) hname
    · exact absurd hname hn.1
    · exact absurd hname.symm D.ne
    · exact h.self e he hname
  apart := by
    rintro e (rfl | rfl | he) hp
    · exact hdc.symm
    · exact absurd rfl hp.2
    · exact h.apart e he hp
  entered := by
    rintro e (rfl | rfl | he) hdir
    · exact .inr (.inr hc)
    · exact .inr (.inr hd)
    · exact .inr (.inr (h.entered e he hdir))
  above := by
    rintro e (rfl | rfl | he) hp hdir
    · exact .inr (.inl rfl)
    · exact absurd rfl hp.2
    · exact .inr (.inr (h.above e he hp hdir))
  once := by
    rintro e (rfl | rfl | he) e' (rfl | rfl | he') hp hp' hdir hnode
    · rfl
    · exact absurd rfl hp'.2
    · exact absurd hnode.symm (hnone e' he' hp')
    · exact absurd rfl hp.2
    · rfl
    · exact absurd rfl hp.2
    · exact absurd hnode (hnone e he hp)
    · exact absurd rfl hp'.2
    · exact h.once e he e' he' hp hp' hdir hnode
  below := by
    rintro e (rfl | rfl | he) hname
    · exact absurd hname hn.2
    · exact .inr ⟨_, .inl rfl, hn, rfl, rfl⟩
    · rcases h.below e he hname with hroot | ⟨e', he', hrest⟩
      · exact .inl hroot
      · exact .inr ⟨e', .inr (.inr he'), hrest⟩

/-- What is left when a directory loses its name. -/
def detached (D : Dots ν) (S : Set (Naming δ ν)) (d : δ) (n : ν) (c : δ) : Set (Naming δ ν) :=
  (S \ {⟨d, n, c⟩}) \ {⟨c, D.up, d⟩}

theorem mem_detached : e ∈ detached D S d n c ↔ e ∈ S ∧ e ≠ ⟨d, n, c⟩ ∧ e ≠ ⟨c, D.up, d⟩ := by
  simp [detached, and_assoc]

theorem self_mem_detached (hn : D.Proper n) (hi : ⟨i, D.self, i⟩ ∈ S) :
    ⟨i, D.self, i⟩ ∈ detached D S d n c :=
  mem_detached.mpr ⟨hi, fun heq => hn.1 (congrArg Naming.name heq).symm,
    fun heq => D.ne (congrArg Naming.name heq)⟩

/-- A directory loses its name, and its entry for the directory above. -/
theorem detach (h : NameTree D isDir root S) (he : ⟨d, n, c⟩ ∈ S) (hn : D.Proper n) (hc : isDir c) :
    NameTree D isDir root (detached D S d n c) where
  keys e he e' he' := h.keys e (mem_detached.mp he).1 e' (mem_detached.mp he').1
  dirs e he := ⟨(h.dirs e (mem_detached.mp he).1).1,
    self_mem_detached hn (h.dirs e (mem_detached.mp he).1).2⟩
  self e he := h.self e (mem_detached.mp he).1
  apart e he := h.apart e (mem_detached.mp he).1
  entered e he hdir := self_mem_detached hn (h.entered e (mem_detached.mp he).1 hdir)
  above e he' hp hdir := by
    obtain ⟨hmem, hne, -⟩ := mem_detached.mp he'
    refine mem_detached.mpr ⟨h.above e hmem hp hdir, fun heq => hn.2 (congrArg Naming.name heq).symm,
      fun heq => hne ?_⟩
    exact h.once e hmem _ he hp hn hdir (congrArg Naming.dir heq)
  once e he e' he' := h.once e (mem_detached.mp he).1 e' (mem_detached.mp he').1
  below e he' hname := by
    obtain ⟨hmem, -, hne⟩ := mem_detached.mp he'
    rcases h.below e hmem hname with hroot | ⟨e', hmem', hp, hdir, hnode⟩
    · exact .inl hroot
    · refine .inr ⟨e', mem_detached.mpr ⟨hmem', fun heq => hne ?_, fun heq => ?_⟩, hp, hdir, hnode⟩
      · subst heq
        exact h.keys e hmem _ (h.above _ he hn hc) hnode.symm hname
      · subst heq
        exact hp.2 rfl

/-- The last entry of a directory that has no name goes. -/
theorem eraseSelf (h : NameTree D isDir root S)
    (hlast : ∀ e ∈ S, e.dir = c ∨ e.node = c → e = ⟨c, D.self, c⟩) :
    NameTree D isDir root (S \ {⟨c, D.self, c⟩}) := by
  have hother : ∀ {i}, i ≠ c → ⟨i, D.self, i⟩ ∈ S →
      (⟨i, D.self, i⟩ : Naming δ ν) ∈ S \ {⟨c, D.self, c⟩} :=
    fun hne hmem => ⟨hmem, fun heq => hne (congrArg Naming.dir (Set.mem_singleton_iff.mp heq))⟩
  exact {
    keys := fun e he e' he' => h.keys e he.1 e' he'.1
    dirs := fun e he => ⟨(h.dirs e he.1).1,
      hother (fun heq => he.2 (hlast e he.1 (.inl heq))) (h.dirs e he.1).2⟩
    self := fun e he => h.self e he.1
    apart := fun e he => h.apart e he.1
    entered := fun e he hdir =>
      hother (fun heq => he.2 (hlast e he.1 (.inr heq))) (h.entered e he.1 hdir)
    above := fun e he hp hdir => ⟨h.above e he.1 hp hdir, fun heq =>
      D.ne (congrArg Naming.name (Set.mem_singleton_iff.mp heq)).symm⟩
    once := fun e he e' he' => h.once e he.1 e' he'.1
    below := fun e he hname => by
      rcases h.below e he.1 hname with hroot | ⟨e', hmem', hp, hrest⟩
      · exact .inl hroot
      · refine .inr ⟨e', ⟨hmem', ?_⟩, hp, hrest⟩
        rintro rfl
        exact hp.1 rfl }

/-- A directory that is empty and loses its name has only the entry for itself left. -/
theorem only_self (h : NameTree D isDir root S) (he : ⟨d, n, c⟩ ∈ S) (hn : D.Proper n) (hc : isDir c)
    (hempty : ∀ e ∈ S, e.dir = c → ¬D.Proper e.name) (he' : e ∈ detached D S d n c)
    (hin : e.dir = c ∨ e.node = c) : e = ⟨c, D.self, c⟩ := by
  obtain ⟨hmem, hne, hnup⟩ := mem_detached.mp he'
  have hself := h.entered _ he hc
  have habove := h.above _ he hn hc
  by_cases hnself : e.name = D.self
  · have hnode := h.self e hmem hnself
    have hdir : e.dir = c := hin.elim id fun h => hnode.symm.trans h
    exact h.keys e hmem _ hself hdir hnself
  by_cases hup : e.name = D.up
  · by_cases hdir : e.dir = c
    · exact absurd (h.keys e hmem _ habove hdir hup) hnup
    · have hnode := hin.resolve_left hdir
      rcases h.below e hmem hup with ⟨hroot, hroot'⟩ | ⟨e', hmem', hp, hdir', -⟩
      · exact absurd (hroot.trans (hroot'.symm.trans hnode)) hdir
      · exact absurd hp (hempty e' hmem' (hdir'.trans hnode))
  · have hp : D.Proper e.name := ⟨hnself, hup⟩
    have hnode : e.node = c := hin.resolve_left fun hdir => hempty e hmem hdir hp
    exact absurd (h.once e hmem _ he hp hn (hnode ▸ hc) hnode) hne

end NameTree

/-! ### Lists of entries -/

theorem setOf_mem_cons {α : Type} (a : α) (l : List α) : {x | x ∈ a :: l} = insert a {x | x ∈ l} :=
  Set.ext fun _ => List.mem_cons

theorem setOf_mem_erase {α : Type} [DecidableEq α] {l : List α} (h : l.Nodup) (a : α) :
    {x | x ∈ l.erase a} = {x | x ∈ l} \ {a} :=
  Set.ext fun x => by
    rw [Set.mem_ofPred_eq, h.mem_erase_iff, and_comm]
    rfl

end Lib
