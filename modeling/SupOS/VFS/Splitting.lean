import SupOS.VFS.Ownership
import SupOS.VFS.Parents
import SupOS.Lib.Words
import SupOS.Libcpp.SplitConcat

/-! `splitFileName` of `User/SyscallUtils.cpp`, by which the system calls that create or remove a file find
the directory that has it, beside `resolvePath` of the whole path. -/

namespace SupOS

open Lib

/-- The characters since the last separator are the first ones of the next piece. -/
theorem splitFrom_eq (separator : Char) (keepEmpty : Bool) (word cs : List Char) :
    splitFrom separator keepEmpty word cs =
      (Utility.kept keepEmpty ((cs.splitOn separator).modifyHead (word.reverse ++ ·))).map
        String.ofList := by
  induction cs generalizing word with
  | nil =>
    unfold splitFrom
    cases word with
    | nil => rfl
    | cons c word =>
      rw [if_neg (by simp), List.splitOn_nil, List.modifyHead_cons, List.append_nil,
        Utility.kept_singleton (by simp)]
      rfl
  | cons c cs ih =>
    obtain ⟨head, rest, hsplit⟩ := List.exists_cons_of_ne_nil (List.splitOn_ne_nil separator cs)
    unfold splitFrom
    rw [List.splitOn_cons_eq_if_modifyHead]
    by_cases hc : c = separator
    · rw [if_pos hc, if_pos (beq_iff_eq.mpr hc), ih, List.modifyHead_cons, List.append_nil,
        Utility.kept_cons (List.splitOn_ne_nil _ _)]
      have hempty : word.reverse.isEmpty = word.isEmpty := List.isEmpty_reverse
      rw [hempty, List.map_append, hsplit]
      split_ifs <;> rfl
    · rw [if_neg hc, if_neg (by simpa using hc), ih, hsplit]
      simp

/-- The `split` of paths is that of any strings. -/
theorem split_eq_kept (str : List Char) (separator : Char) (keepEmpty : Bool) :
    split str separator keepEmpty =
      (Utility.kept keepEmpty (str.splitOn separator)).map String.ofList := by
  obtain ⟨head, rest, hsplit⟩ := List.exists_cons_of_ne_nil (List.splitOn_ne_nil separator str)
  rw [split, splitFrom_eq, hsplit]
  rfl

/-- `splitFileName`: the loop looks for the last slash. -/
def splitFileName (s : List Char) : List Char × List Char :=
  match lastIndex (fun i => s[i]? == some '/') s.length with
  | some i => (s.take i, s.drop (i + 1))
  | none => ([], s)

example : splitFileName "/tmp//a".toList = ("/tmp/".toList, "a".toList) := by decide

theorem splitFileName_cases (s : List Char) :
    (∃ first second, s = first ++ '/' :: second ∧ '/' ∉ second ∧ splitFileName s = (first, second)) ∨
      ('/' ∉ s ∧ splitFileName s = ([], s)) := by
  unfold splitFileName
  cases hi : lastIndex (fun i => s[i]? == some '/') s.length with
  | some i =>
    obtain ⟨hlt, hslash, hlast⟩ := lastIndex_some hi
    have hget : s[i] = '/' := by
      rw [beq_iff_eq, List.getElem?_eq_getElem hlt] at hslash
      exact Option.some.inj hslash
    refine .inl ⟨s.take i, s.drop (i + 1), ?_, fun hmem => ?_, rfl⟩
    · rw [← hget, List.cons_getElem_drop_succ, List.take_append_drop]
    · obtain ⟨j, hj⟩ := List.mem_iff_getElem?.mp hmem
      rw [List.getElem?_drop] at hj
      obtain ⟨hjlt, -⟩ := List.getElem?_eq_some_iff.mp hj
      have hno := hlast (i + 1 + j) (by omega) hjlt
      rw [hj] at hno
      cases hno
  | none =>
    refine .inr ⟨fun hmem => ?_, rfl⟩
    obtain ⟨j, hj⟩ := List.mem_iff_getElem?.mp hmem
    obtain ⟨hjlt, -⟩ := List.getElem?_eq_some_iff.mp hj
    have hno := lastIndex_none hi j hjlt
    rw [hj] at hno
    cases hno

theorem splitFrom_name {word w : List Char} (hw : '/' ∉ w) :
    splitFrom '/' false word w = if (w.reverse ++ word).isEmpty then [] else
      [String.ofList (w.reverse ++ word).reverse] := by
  induction w generalizing word with
  | nil => rfl
  | cons c w ih =>
    rw [List.mem_cons, not_or] at hw
    rw [splitFrom, if_neg (Ne.symm hw.1), ih hw.2, List.reverse_cons, List.append_assoc,
      List.singleton_append]

/-- The names of a path are those before a slash and those after it. -/
theorem splitFrom_slash (word q w : List Char) : splitFrom '/' false word (q ++ '/' :: w) =
    splitFrom '/' false word q ++ splitFrom '/' false [] w := by
  induction q generalizing word with
  | nil =>
    cases word with
    | nil => rfl
    | cons c word => rfl
  | cons c q ih =>
    rw [List.cons_append, splitFrom, splitFrom, ih, ih]
    by_cases hc : c = '/'
    · rw [if_pos hc, if_pos hc, List.append_assoc]
    · rw [if_neg hc, if_neg hc]

theorem split_name {w : List Char} (hw : '/' ∉ w) (hne : w ≠ []) :
    split w '/' false = [String.ofList w] := by
  rw [split, splitFrom_name hw, List.append_nil, if_neg (by simp [hne]), List.reverse_reverse]

theorem split_slash {q w : List Char} (hw : '/' ∉ w) (hne : w ≠ []) :
    split (q ++ '/' :: w) '/' false = split q '/' false ++ [String.ofList w] := by
  rw [split, splitFrom_slash, ← split_name hw hne]
  rfl

/-- The names that a path leads through are those of its first part and the second. -/
theorem splitFileName_names {path : List Char} (hlast : (splitFileName path).2 ≠ []) :
    (path.head? ≠ some '/' ∧ split path '/' false =
        split (splitFileName path).1 '/' false ++ [String.ofList (splitFileName path).2] ∧
      (splitFileName path).1.head? ≠ some '/') ∨
    (path.head? = some '/' ∧ split path.tail '/' false =
        split (splitFileName path).1 '/' false ++ [String.ofList (splitFileName path).2] ∧
      ((splitFileName path).1 = [] ∨ (splitFileName path).1.head? = some '/' ∧
        split (splitFileName path).1.tail '/' false = split (splitFileName path).1 '/' false)) := by
  rcases splitFileName_cases path with ⟨first, second, rfl, hno, hsplit⟩ | ⟨hno, hsplit⟩
  · rw [hsplit] at hlast ⊢
    cases first with
    | nil => exact .inr ⟨rfl, split_name hno hlast, .inl rfl⟩
    | cons c first =>
      by_cases hc : c = '/'
      · subst hc
        exact .inr ⟨rfl, split_slash hno hlast, .inr ⟨rfl, rfl⟩⟩
      · have hne : (c :: first).head? ≠ some '/' := fun h => hc (Option.some.inj h)
        exact .inl ⟨hne, split_slash hno hlast, hne⟩
  · rw [hsplit] at hlast ⊢
    refine .inl ⟨fun hhead => ?_, split_name hno hlast, by simp⟩
    exact hno (List.mem_of_mem_head? hhead)

namespace VFS

open Libcpp

variable {φ : Type} (disk : φ → FileSystem)

namespace FS

variable (s : FS φ)

/-- The file that a path leads to from a directory. -/
def resolve (wd : Directory φ) (path : List Char) : Except Fault (Option (File φ)) :=
  if path.head? = some '/' then s.walk disk (s.getRoot disk) (split path.tail '/' false)
  else s.walk disk wd.file (split path '/' false)

variable {disk s}

theorem walk_append_eq {f : File φ} {names names' : List String} :
    s.walk disk f (names ++ names') = (do
      match ← s.walk disk f names with
      | none => return none
      | some g => s.walk disk g names') := by
  induction names generalizing f with
  | nil => rfl
  | cons name names ih =>
    rw [List.cons_append, walk, walk]
    cases f.directory with
    | none => rfl
    | some d =>
      dsimp only
      cases s.find disk d name with
      | error e => rfl
      | ok found =>
        cases found with
        | none => rfl
        | some g => exact ih

/-- The new objects are not what a lookup depends on. -/
theorem findWithin_objects {n fuel : Nat} {d : Directory φ} {name : String} :
    findWithin disk { s with objects := n } fuel d name = findWithin disk s fuel d name := by
  induction fuel generalizing d name with
  | zero => rfl
  | succ fuel ih =>
    rw [findWithin, findWithin]
    have habove : above { s with objects := n } d name = above s d name := rfl
    rw [habove]
    cases above s d name with
    | none => rfl
    | some c => exact ih

theorem walk_objects {n : Nat} {f : File φ} {names : List String} :
    walk disk { s with objects := n } f names = walk disk s f names := by
  induction names generalizing f with
  | nil => rfl
  | cons name names ih =>
    rw [walk, walk]
    cases f.directory with
    | none => rfl
    | some d =>
      have hfind : find disk { s with objects := n } d name = find disk s d name := findWithin_objects
      dsimp only
      rw [hfind]
      cases s.find disk d name with
      | error e => rfl
      | ok found =>
        cases found with
        | none => rfl
        | some g => exact ih

end FS

namespace Heap

variable {disk} {h h' : Heap φ} {p wd : Pointer φ} {path : List Char}

/-- What is found in the heap is what is found without the objects. -/
theorem indexWithin_file {fuel : Nat} {name : String} {r : Option (UniquePtr φ)}
    (hr : h.indexWithin disk fuel p name = .ok (r, h')) :
    ∃ found, h.fs.findWithin disk fuel p.toDirectory name = .ok found ∧
      r.map (·.file) = found.map Found.file ∧ ∃ n, h'.fs = { h.fs with objects := n } := by
  induction fuel generalizing p name with
  | zero => cases hr
  | succ fuel ih =>
    rw [indexWithin] at hr
    obtain ⟨_, -, hr⟩ := bind_eq_ok.mp hr
    rw [FS.findWithin, FS.above]
    cases hc : (if name = ".." then h.fs.fromMounted p.inode p.dev else none) with
    | some covered =>
      rw [hc] at hr
      have habove : (if name = ".." then (h.fs.fromMounted p.inode p.dev).map (·.toDirectory) else none)
          = some covered.toDirectory := by
        split_ifs at hc ⊢
        rw [hc]
        rfl
      rw [habove]
      exact ih hr
    | none =>
      rw [hc] at hr
      have habove : (if name = ".." then (h.fs.fromMounted p.inode p.dev).map (·.toDirectory) else none)
          = none := by
        split_ifs at hc ⊢
        · rw [hc]
          rfl
        · rfl
      rw [habove]
      dsimp only at hr ⊢
      cases hb : h.fs.findBelow disk p.toDirectory name with
      | none =>
        rw [hb] at hr
        obtain ⟨rfl, rfl⟩ := Prod.mk.inj (Except.ok.inj hr)
        exact ⟨none, rfl, rfl, _, rfl⟩
      | some found =>
        rw [hb] at hr
        cases found with
        | mounted m =>
          obtain ⟨rfl, rfl⟩ := Prod.mk.inj (Except.ok.inj hr)
          exact ⟨_, rfl, rfl, _, rfl⟩
        | made file =>
          obtain ⟨rfl, rfl⟩ := Prod.mk.inj (Except.ok.inj hr)
          exact ⟨_, rfl, rfl, _, rfl⟩

theorem drop_fs {q : UniquePtr φ} (hd : h.drop q = .ok h') : h'.fs = h.fs := by
  unfold drop at hd
  split_ifs at hd
  · obtain ⟨_, -, hd⟩ := bind_eq_ok.mp hd
    rw [← Except.ok.inj hd]
  · rw [← Except.ok.inj hd]

theorem directory_map (q : UniquePtr φ) :
    q.directory.map (·.toDirectory) = q.file.directory := by
  unfold UniquePtr.directory
  cases q.file.directory <;> rfl

theorem resolveFrom_none {names : List String} :
    resolveFrom disk none names h = .ok (none, h) := by
  cases names with
  | nil => rfl
  | cons name names => rfl

/-- A path leads to what it leads to without the objects. -/
theorem resolveFrom_file {cur : UniquePtr φ} {names : List String} {r : Option (UniquePtr φ)}
    (hr : resolveFrom disk (some cur) names h = .ok (r, h')) :
    h.fs.walk disk cur.file names = .ok (r.map (·.file)) ∧ ∃ n, h'.fs = { h.fs with objects := n } := by
  induction names generalizing cur h with
  | nil =>
    obtain ⟨rfl, rfl⟩ := Prod.mk.inj (Except.ok.inj hr)
    exact ⟨rfl, _, rfl⟩
  | cons name names ih =>
    rw [resolveFrom] at hr
    obtain ⟨_, -, hr⟩ := bind_eq_ok.mp hr
    rw [FS.walk, ← directory_map]
    cases hdir : cur.directory with
    | none =>
      rw [hdir] at hr
      obtain ⟨h₁, hdrop, hr⟩ := bind_eq_ok.mp hr
      obtain ⟨rfl, rfl⟩ := Prod.mk.inj (Except.ok.inj hr)
      exact ⟨rfl, _, drop_fs hdrop⟩
    | some d =>
      rw [hdir] at hr
      obtain ⟨⟨next, h₁⟩, hindex, hr⟩ := bind_eq_ok.mp hr
      obtain ⟨h₂, hdrop, hr⟩ := bind_eq_ok.mp hr
      obtain ⟨found, hfind, hfile, n, hn⟩ := indexWithin_file hindex
      have hfs := (drop_fs hdrop).trans hn
      have hfind' : h.fs.find disk d.toDirectory name = .ok found := hfind
      simp only [Option.map_some, hfind', ok_bind]
      cases found with
      | none =>
        obtain rfl : next = none := Option.map_eq_none_iff.mp hfile
        obtain ⟨rfl, rfl⟩ := Prod.mk.inj (Except.ok.inj (hr.symm.trans resolveFrom_none))
        exact ⟨rfl, n, hfs⟩
      | some g =>
        obtain ⟨f, rfl, hf⟩ := Option.map_eq_some_iff.mp hfile
        obtain ⟨hwalk, m, hm⟩ := ih hr
        rw [hfs, FS.walk_objects, hf] at hwalk
        exact ⟨hwalk, m, by rw [hm, hfs]⟩

theorem resolvePath_file {r : Option (UniquePtr φ)}
    (hr : h.resolvePath disk wd path = .ok (r, h')) :
    h.fs.resolve disk wd.toDirectory path = .ok (r.map (·.file)) ∧
      ∃ n, h'.fs = { h.fs with objects := n } := by
  rw [resolvePath] at hr
  rw [FS.resolve]
  by_cases hhead : path.head? = some '/'
  · rw [if_pos hhead] at hr ⊢
    obtain ⟨⟨f, h₁⟩, hres, hr⟩ := bind_eq_ok.mp hr
    obtain ⟨h₂, hdrop, hr⟩ := bind_eq_ok.mp hr
    obtain ⟨rfl, rfl⟩ := Prod.mk.inj (Except.ok.inj hr)
    obtain ⟨hwalk, n, hn⟩ := resolveFrom_file hres
    have hmade : FS.walk disk { h.fs with objects := h.fs.objects + 1 } (h.fs.getRoot disk)
        (split path.tail '/' false) = .ok (f.map (·.file)) := hwalk
    rw [FS.walk_objects] at hmade
    exact ⟨hmade, n, (drop_fs hdrop).trans hn⟩
  · rw [if_neg hhead] at hr ⊢
    exact resolveFrom_file hr

variable (disk h wd path)

/-- The directory of the first part of the path, and in it the file of the second. -/
def lookupSplit : Except Fault (Option (UniquePtr φ) × Heap φ) := do
  let (f, h) ← h.resolvePath disk wd (splitFileName path).1
  resolveFrom disk f [String.ofList (splitFileName path).2] h

/-- Both ways lead to the same file, or to none. -/
def Agrees : Prop :=
  ∃ r h₁ r' h₂, h.resolvePath disk wd path = .ok (r, h₁) ∧ h.lookupSplit disk wd path = .ok (r', h₂) ∧
    r.map (·.file) = r'.map (·.file)

/-- The path is not one from the root with no name before its last slash; or that slash is its first
character, and the last name stands for the same in the working directory as in the root. -/
def Splittable : Prop :=
  path.head? = some '/' → split (splitFileName path).1 '/' false = [] →
    (splitFileName path).1 = [] ∧
      h.fs.walk disk wd.file [String.ofList (splitFileName path).2] =
        h.fs.walk disk (h.fs.getRoot disk) [String.ofList (splitFileName path).2]

variable {disk h wd path}

theorem not_rootless (hlast : (splitFileName path).2 ≠ []) : ¬Rootless path := by
  rintro ⟨hhead, hnil⟩
  rcases splitFileName_names hlast with ⟨hno, -⟩ | ⟨-, hnames, -⟩
  · exact hno hhead
  · rw [hnil] at hnames
    exact List.append_ne_nil_of_right_ne_nil _ (List.cons_ne_nil _ _) hnames.symm

theorem not_empty (hlast : (splitFileName path).2 ≠ []) : ¬Empty path := by
  rintro ⟨hhead, hnil⟩
  rcases splitFileName_names hlast with ⟨-, hnames, -⟩ | ⟨hyes, -⟩
  · rw [hnil] at hnames
    exact List.append_ne_nil_of_right_ne_nil _ (List.cons_ne_nil _ _) hnames.symm
  · exact hhead hyes

/-- The second look does not go through an object that is gone. -/
theorem lookupSplit_ok (hs : h.Sound disk) (hp : h.Live wd.object) (hd : h.fs.Device wd.fs wd.dev)
    (hroot : ¬Rootless (splitFileName path).1) :
    ∃ r h', h.lookupSplit disk wd path = .ok (r, h') := by
  unfold lookupSplit
  by_cases hempty : Empty (splitFileName path).1
  · rw [resolvePath_empty hempty, ok_bind]
    obtain ⟨next, h₁, hindex, -⟩ := index_spec (String.ofList (splitFileName path).2) hs hp hd
    have hdir : (⟨wd.object, wd.file, false⟩ : UniquePtr φ).directory = some wd := rfl
    simp only [resolveFrom, access_live hp, ok_bind, hdir, hindex, Heap.drop, Bool.false_eq_true, if_false,
      pure, Except.pure]
    exact ⟨_, _, rfl⟩
  · obtain ⟨r, h₁, hres, hs₁, hl, hr⟩ := resolvePath_named hs hp hd hroot hempty
    obtain ⟨r', h₂, hnext⟩ : ∃ r' h₂,
        resolveFrom disk r [String.ofList (splitFileName path).2] h₁ = .ok (r', h₂) :=
      (resolveFrom_spec hs hs₁ hl hr).imp fun _ h => h.imp fun _ h => h.1
    rw [hres, ok_bind]
    exact ⟨r', h₂, hnext⟩

/-- The file that both parts of the path lead to. -/
theorem lookupSplit_file {r : Option (UniquePtr φ)} (hr : h.lookupSplit disk wd path = .ok (r, h')) :
    (do
      match ← h.fs.resolve disk wd.toDirectory (splitFileName path).1 with
      | none => return none
      | some f => h.fs.walk disk f [String.ofList (splitFileName path).2]) = .ok (r.map (·.file)) := by
  obtain ⟨⟨f, h₁⟩, hres, hr⟩ := bind_eq_ok.mp hr
  obtain ⟨hfile, n, hn⟩ := resolvePath_file hres
  rw [hfile, ok_bind]
  cases f with
  | none =>
    obtain ⟨rfl, rfl⟩ := Prod.mk.inj (Except.ok.inj (hr.symm.trans resolveFrom_none))
    rfl
  | some f =>
    obtain ⟨hwalk, -⟩ := resolveFrom_file hr
    rw [hn, FS.walk_objects] at hwalk
    exact hwalk

/-- When the whole path and its two parts lead to the same file. -/
theorem split_agrees_iff (h : Heap φ) (wd : Pointer φ) (path : List Char) (hs : h.Sound disk)
    (hp : h.Live wd.object) (hd : h.fs.Device wd.fs wd.dev) (hlast : (splitFileName path).2 ≠ []) :
    h.Agrees disk wd path ↔ h.Splittable disk wd path := by
  obtain ⟨r, h₁, hres⟩ : ∃ r h₁, h.resolvePath disk wd path = .ok (r, h₁) := by
    obtain ⟨r, h₁, hres, -⟩ := resolvePath_named hs hp hd (not_rootless hlast) (not_empty hlast)
    exact ⟨r, h₁, hres⟩
  obtain ⟨hfile, -⟩ := resolvePath_file hres
  rcases splitFileName_names hlast with ⟨hhead, hnames, hfirst⟩ | ⟨hhead, hnames, hfirst⟩
  · refine iff_of_true ?_ fun habs => absurd habs hhead
    obtain ⟨r', h₂, hlook⟩ : ∃ r' h₂, h.lookupSplit disk wd path = .ok (r', h₂) :=
      lookupSplit_ok hs hp hd fun hroot => hfirst hroot.1
    have hsplit := lookupSplit_file hlook
    rw [FS.resolve, if_neg hfirst, ← FS.walk_append_eq, ← hnames] at hsplit
    rw [FS.resolve, if_neg hhead] at hfile
    exact ⟨r, h₁, r', h₂, hres, hlook, Except.ok.inj (hfile.symm.trans hsplit)⟩
  rw [FS.resolve, if_pos hhead, hnames, FS.walk_append_eq] at hfile
  by_cases hnone : split (splitFileName path).1 '/' false = []
  · rw [hnone] at hfile
    have hfile' : h.fs.walk disk (h.fs.getRoot disk) [String.ofList (splitFileName path).2] =
        .ok (r.map (·.file)) := hfile
    rcases hfirst with hnil | ⟨hslash, htail⟩
    · -- the first part is empty, which stands for the working directory
      obtain ⟨r', h₂, hlook⟩ : ∃ r' h₂, h.lookupSplit disk wd path = .ok (r', h₂) :=
        lookupSplit_ok hs hp hd fun hroot => by
          rw [hnil] at hroot
          cases hroot.1
      have hsplit := lookupSplit_file hlook
      rw [hnil] at hsplit
      have hsplit' : h.fs.walk disk wd.file [String.ofList (splitFileName path).2] =
          .ok (r'.map (·.file)) := hsplit
      constructor
      · rintro ⟨r₂, h₃, r₃, h₄, hr₂, hr₃, heq⟩ - -
        obtain ⟨rfl, rfl⟩ := Prod.mk.inj (Except.ok.inj (hres.symm.trans hr₂))
        obtain ⟨rfl, rfl⟩ := Prod.mk.inj (Except.ok.inj (hlook.symm.trans hr₃))
        rw [hfile', hsplit', heq]
        exact ⟨hnil, rfl⟩
      · intro hs
        obtain ⟨-, heq⟩ := hs hhead hnone
        rw [hfile', hsplit', Except.ok.injEq] at heq
        exact ⟨r, h₁, r', h₂, hres, hlook, heq.symm⟩
    · -- the first part is the root, which is gone when the second is looked up
      have hroot : Rootless (splitFileName path).1 := ⟨hslash, htail.trans hnone⟩
      refine iff_of_false ?_ fun hs => ?_
      · rintro ⟨r₂, h₃, r₃, h₄, -, hr₃, -⟩
        obtain ⟨f, h', hres', -, -, -, hdead⟩ := resolvePath_rootless (p := wd) hs hroot
        have hstop : h.lookupSplit disk wd path = .error .dangling := by
          rw [lookupSplit, hres', ok_bind]
          simp only [resolveFrom, access_dead hdead, error_bind]
        cases hr₃.symm.trans hstop
      · rw [(hs hhead hnone).1] at hslash
        cases hslash
  · refine iff_of_true ?_ fun _ hnil => absurd hnil hnone
    have hslash : (splitFileName path).1.head? = some '/' ∧
        split (splitFileName path).1.tail '/' false = split (splitFileName path).1 '/' false := by
      refine hfirst.resolve_left fun hnil => hnone ?_
      rw [hnil]
      rfl
    obtain ⟨r', h₂, hlook⟩ : ∃ r' h₂, h.lookupSplit disk wd path = .ok (r', h₂) :=
      lookupSplit_ok hs hp hd fun hroot => hnone (hslash.2.symm.trans hroot.2)
    have hsplit := lookupSplit_file hlook
    rw [FS.resolve, if_pos hslash.1, hslash.2] at hsplit
    exact ⟨r, h₁, r', h₂, hres, hlook, Except.ok.inj (hfile.symm.trans hsplit)⟩

/-- One file system, and an object for a working directory. -/
def unmounted (root : φ) : Heap φ := ⟨{ FS.new root with objects := 1 }, []⟩

theorem sound_unmounted (root : φ) : (unmounted root).Sound disk where
  valid :=
    have hv : (FS.new root).Valid disk := FS.valid_new root
    ⟨hv.mountedStored, hv.reverseStored, hv.count, hv.mounted, hv.mounted_unique, hv.covered,
      hv.covered_unique⟩
  permanent o ho := by
    rcases ho with ⟨k, q, hq, -⟩ | ⟨k, q, hq, -⟩
    · cases hq
    · cases hq
  deleted o ho := absurd ho List.not_mem_nil

/-- The directory `/tmp` of one file system. -/
def tmp : Pointer (Fin 1) := ⟨⟨0, 11, 0⟩, 0⟩

theorem agrees_parent :
    (unmounted 0).Agrees (fun _ : Fin 1 => FS.small) tmp "//tmp//..".toList := by
  refine (split_agrees_iff (unmounted 0) tmp _ (sound_unmounted 0) ⟨by decide, by decide⟩ (.inl ⟨rfl, rfl⟩)
    (by decide)).mpr fun _ hnil => ?_
  exact absurd hnil (by decide)

/-- From the directory `/tmp`, the path `/tmp` is looked up in `/tmp` itself. -/
theorem split_misses_root :
    ¬(unmounted 0).Agrees (fun _ : Fin 1 => FS.small) tmp "/tmp".toList := by
  rintro ⟨r, h₁, r', h₂, hres, hlook, heq⟩
  have hfile := (resolvePath_file hres).1
  have hsplit := lookupSplit_file hlook
  rw [← heq, ← hfile] at hsplit
  exact absurd hsplit (by decide)

end Heap

end VFS

end SupOS
