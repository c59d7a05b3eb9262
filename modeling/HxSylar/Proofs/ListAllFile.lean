import HxSylar.Proofs.Rm

namespace HxSylar.FSUtil
open Lib Lib.FileSystem

section Below
variable {fs : FileSystem} {path : Text} {p rel : Place} {f : File}

/-- The names on the way down from a place have no slash. -/
theorem below_no_slash (hf : fs.fileAt (p ++ rel) = some f) : ∀ n ∈ rel, byte '/' ∉ n := by
  rcases List.eq_nil_or_concat rel with rfl | ⟨dir, n, rfl⟩
  · intro n hn
    cases hn
  · rw [List.concat_eq_append, ← List.append_assoc] at hf
    intro m hm
    apply (walk_place hf).2
    rw [List.concat_eq_append] at hm
    rw [List.append_assoc]
    exact List.mem_append_right p hm

/-- Nothing is below what is no directory. -/
theorem below_of_not_dir (hdir : fs.isDir p = false) (hf : fs.fileAt (p ++ rel) = some f) :
    rel = [] := by
  cases rel with
  | nil => rfl
  | cons n rel =>
    have hnone : fs.fileAt (p ++ [n]) = none := by
      by_contra hsome
      have hmem := fileAt_child.mpr hsome
      rw [children_of_not_dir hdir] at hmem
      exact Finset.notMem_empty n hmem
    rw [fileAt_below hnone ⟨rel, (List.append_cons p n rel).symm⟩] at hf
    cases hf

theorem pathTo_concat (p : Place) (n : Text) : pathTo (p ++ [n]) = pathTo p ++ byte '/' :: n := by
  rw [pathTo, pathTo, List.flatMap_append, List.flatMap_singleton]

theorem pathTo_cons (n : Text) (p : Place) : pathTo (n :: p) = byte '/' :: n ++ pathTo p := rfl

/-- Two ways down with one path are the same. -/
theorem pathTo_inj {rel' : Place} (h : pathTo rel = pathTo rel') (hrel : ∀ n ∈ rel, byte '/' ∉ n)
    (hrel' : ∀ n ∈ rel', byte '/' ∉ n) : rel = rel' := by
  have hparts := congrArg components h
  rw [components_pathTo hrel, components_pathTo hrel'] at hparts
  exact (List.cons.inj hparts).2

/-- The path of a file in a directory leads to it also when the directory was reached by links. -/
theorem follow_child {n : Text} (h : fs.follow path = some p) (hf : fs.fileAt (p ++ [n]) = some f)
    (htarget : f.target = none) : fs.follow (path ++ byte '/' :: n) = some (p ++ [n]) := by
  rw [follow] at h
  split at h
  · cases h
  · rename_i hne
    obtain ⟨⟨links, q⟩, hwalk, rfl⟩ := Option.map_eq_some_iff.mp h
    rw [follow, if_neg (by simp), components_child path (fileAt_placed hf).1.2.2.2,
      start_child hne, walk_append, hwalk, Option.bind_some, walk_name hf htarget]
    rfl

/-- A path and the way down from where it leads, put together, lead to the file there. -/
theorem follow_below (h : fs.follow path = some p) (hf : fs.fileAt (p ++ rel) = some f)
    (htarget : f.target = none) : fs.follow (path ++ pathTo rel) = some (p ++ rel) := by
  induction rel using List.reverseRecOn generalizing f with
  | nil =>
    rw [List.append_nil]
    exact (congrArg fs.follow (List.append_nil path)).trans h
  | append_singleton rel n ih =>
    rw [← List.append_assoc] at hf ⊢
    obtain ⟨d, hd, htype⟩ := isDir_iff.mp (fileAt_placed hf).2
    rw [pathTo_concat, ← List.append_assoc]
    exact follow_child (ih hd (by rw [File.target, htype])) hf htarget

end Below

section Listing
variable {sys : Syscalls} {fs : FileSystem} {subfix path : Text} {p : Place}

theorem hasSubfix_iff (filename subfix : Text) :
    hasSubfix filename subfix = true ↔ subfix <:+ filename := by
  rw [hasSubfix]
  split
  · rename_i hnil
    rw [hnil]
    exact iff_of_true rfl List.nil_suffix
  · split
    · rename_i hlt
      refine iff_of_false Bool.false_ne_true fun h => ?_
      exact Nat.not_le_of_lt hlt h.length_le
    · rw [beq_iff_eq, List.suffix_iff_eq_drop, eq_comm]

/-- What `ListAllFile` looks for below a place: a regular file whose name has the suffix. -/
structure Wanted (fs : FileSystem) (p : Place) (subfix : Text) (rel : Place) : Prop where
  below : rel ≠ []
  regular : ∃ f, fs.fileAt (p ++ rel) = some f ∧ f.type = .regular
  suffix : subfix <:+ rel.getLastD []

/-- A directory is read without naming one of its files twice. -/
def NamesOnce (sys : Syscalls) : Prop := ∀ calls names, (sys.listing calls names).Nodup

/-- The files listed are those looked for, of the ways down that `among` admits. -/
structure Listed (sys : Syscalls) (fs : FileSystem) (subfix path : Text) (p : Place)
    (among : Place → Prop) (files : List Text) : Prop where
  found : ∀ t ∈ files, ∃ rel, among rel ∧ Wanted fs p subfix rel ∧ t = path ++ pathTo rel
  all : sys.Obliging → ∀ rel, among rel → Wanted fs p subfix rel → path ++ pathTo rel ∈ files
  once : NamesOnce sys → files.Nodup

/-- The way down begins with one of the names. -/
def Through (names : List Text) (rel : Place) : Prop := ∃ n ∈ names, rel.head? = some n

theorem Wanted.no_slash {rel : Place} (h : Wanted fs p subfix rel) : ∀ n ∈ rel, byte '/' ∉ n := by
  obtain ⟨f, hf, -⟩ := h.regular
  exact below_no_slash hf

/-- The first name on the way is that of a file in the directory. -/
theorem Wanted.head {rel : Place} {n : Text} (h : Wanted fs p subfix (n :: rel)) :
    ∃ f, fs.fileAt (p ++ [n]) = some f := by
  obtain ⟨f, hf, -⟩ := h.regular
  rw [← Option.ne_none_iff_exists']
  intro hnone
  rw [fileAt_below hnone ⟨rel, (List.append_cons p n rel).symm⟩] at hf
  cases hf

theorem Wanted.child_iff {n : Text} {rel : Place} (hrel : rel ≠ []) :
    Wanted fs p subfix (n :: rel) ↔ Wanted fs (p ++ [n]) subfix rel := by
  have hplace : p ++ n :: rel = p ++ [n] ++ rel := List.append_cons p n rel
  have hlast : (n :: rel).getLastD [] = rel.getLastD [] := by
    cases rel with
    | nil => exact absurd rfl hrel
    | cons m rel => rfl
  constructor
  · intro ⟨_, hregular, hsuffix⟩
    exact ⟨hrel, hplace ▸ hregular, hlast ▸ hsuffix⟩
  · intro ⟨_, hregular, hsuffix⟩
    exact ⟨List.cons_ne_nil n rel, hplace ▸ hregular, hlast ▸ hsuffix⟩

/-- Nothing is listed where nothing is looked for. -/
theorem Listed.empty {among : Place → Prop}
    (h : ∀ rel, among rel → ¬Wanted fs p subfix rel) : Listed sys fs subfix path p among [] where
  found := by
    intro t ht
    cases ht
  all := fun _ rel hamong hwanted => absurd hwanted (h rel hamong)
  once := fun _ => List.nodup_nil

/-- What was listed of one name and then of others, which have no way down in common with it. -/
theorem Listed.cons {n : Text} {names : List Text} {new files : List Text}
    (hnew : Listed sys fs subfix path p (Through [n]) new)
    (hfiles : Listed sys fs subfix path p (Through names) files)
    (hother : NamesOnce sys → n ∉ names) :
    Listed sys fs subfix path p (Through (n :: names)) (new ++ files) where
  found := by
    intro t ht
    rcases List.mem_append.mp ht with ht | ht
    · obtain ⟨rel, ⟨m, hm, hhead⟩, hrel⟩ := hnew.found t ht
      rw [List.mem_singleton.mp hm] at hhead
      exact ⟨rel, ⟨n, List.mem_cons_self, hhead⟩, hrel⟩
    · obtain ⟨rel, ⟨m, hm, hhead⟩, hrel⟩ := hfiles.found t ht
      exact ⟨rel, ⟨m, List.mem_cons_of_mem n hm, hhead⟩, hrel⟩
  all := by
    intro hobliging rel ⟨m, hm, hhead⟩ hwanted
    rcases List.mem_cons.mp hm with rfl | hm
    · exact List.mem_append_left files
        (hnew.all hobliging rel ⟨m, List.mem_singleton_self m, hhead⟩ hwanted)
    · exact List.mem_append_right new (hfiles.all hobliging rel ⟨m, hm, hhead⟩ hwanted)
  once := by
    intro honce
    refine (hnew.once honce).append (hfiles.once honce) fun t ht ht' => ?_
    obtain ⟨rel, ⟨m, hm, hhead⟩, hrel, rfl⟩ := hnew.found t ht
    obtain ⟨rel', ⟨m', hm', hhead'⟩, hrel', hsame⟩ := hfiles.found _ ht'
    rw [pathTo_inj (List.append_cancel_left hsame) hrel.no_slash hrel'.no_slash, hhead'] at hhead
    rw [List.mem_singleton.mp hm] at hhead
    rw [Option.some.inj hhead] at hm'
    exact hother honce hm'

/-- The files below a directory, as seen from the directory that it lies in. -/
theorem Listed.up {n : Text} {files : List Text} (hdir : fs.isDir (p ++ [n]) = true)
    (h : Listed sys fs subfix (path ++ byte '/' :: n) (p ++ [n]) (fun _ => True) files) :
    Listed sys fs subfix path p (Through [n]) files where
  found := by
    intro t ht
    obtain ⟨rel, -, hrel, rfl⟩ := h.found t ht
    refine ⟨n :: rel, ⟨n, List.mem_singleton_self n, rfl⟩, (Wanted.child_iff hrel.below).mpr hrel, ?_⟩
    rw [pathTo_cons, List.append_assoc]
  all := by
    intro hobliging rel ⟨m, hm, hhead⟩ hwanted
    rw [List.mem_singleton.mp hm] at hhead
    obtain ⟨rel, rfl⟩ := List.head?_eq_some_iff.mp hhead
    have hbelow : rel ≠ [] := by
      rintro rfl
      obtain ⟨f, hf, htype⟩ := hwanted.regular
      rw [isDir, hf, Option.any_some, htype] at hdir
      cases hdir
    rw [pathTo_cons, ← List.append_assoc]
    exact h.all hobliging rel trivial ((Wanted.child_iff hbelow).mp hwanted)
  once := h.once

/-- A regular file in the directory. -/
theorem Listed.file {n : Text} {f : File} (hf : fs.fileAt (p ++ [n]) = some f)
    (htype : f.type = .regular) :
    Listed sys fs subfix path p (Through [n])
      (if hasSubfix n subfix then [path ++ byte '/' :: n] else []) := by
  have hdir : fs.isDir (p ++ [n]) = false := by
    rw [isDir, hf, Option.any_some, htype]
    rfl
  have honly : ∀ rel, Through [n] rel → Wanted fs p subfix rel → rel = [n] := by
    intro rel hthrough hwanted
    obtain ⟨m, hm, hhead⟩ := hthrough
    rw [List.mem_singleton.mp hm] at hhead
    obtain ⟨rel, rfl⟩ := List.head?_eq_some_iff.mp hhead
    obtain ⟨f', hf', -⟩ := hwanted.regular
    rw [List.append_cons] at hf'
    rw [below_of_not_dir hdir hf']
  have hpath : path ++ byte '/' :: n = path ++ pathTo [n] := by simp [pathTo]
  split
  · rename_i hsubfix
    refine ⟨fun t ht => ?_, fun _ rel hthrough hwanted => ?_, fun _ => List.nodup_singleton _⟩
    · rw [List.mem_singleton.mp ht]
      exact ⟨[n], ⟨n, List.mem_singleton_self n, rfl⟩,
        ⟨List.cons_ne_nil n [], ⟨f, hf, htype⟩, (hasSubfix_iff n subfix).mp hsubfix⟩, hpath⟩
    · rw [honly rel hthrough hwanted, hpath]
      exact List.mem_singleton_self _
  · rename_i hsubfix
    apply Listed.empty
    intro rel hthrough hwanted
    have hsuffix := hwanted.suffix
    rw [honly rel hthrough hwanted] at hsuffix
    exact hsubfix ((hasSubfix_iff n subfix).mpr hsuffix)

end Listing

section Returns
variable {sys : Syscalls} {fs : FileSystem} {subfix path : Text} {p : Place} {m calls : Nat}

/-- `ListAllFile` returns when it has fuel for `m` levels. It has changed no file. -/
def Returns (sys : Syscalls) (fs : FileSystem) (subfix : Text) (m : Nat) (path : Text) (p : Place)
    (calls : Nat) : Prop :=
  ∃ files calls', (∀ fuel, m ≤ fuel →
      listAllFile sys subfix fuel path ⟨fs, calls⟩ = some (files, ⟨fs, calls'⟩)) ∧
    Listed sys fs subfix path p (fun _ => True) files

/-- `ListAllFile` returns for each directory in the directory. -/
def ChildrenReturn (sys : Syscalls) (fs : FileSystem) (subfix : Text) (m : Nat) (path : Text)
    (p : Place) : Prop :=
  ∀ n calls, fs.isDir (p ++ [n]) = true →
    Returns sys fs subfix m (path ++ byte '/' :: n) (p ++ [n]) calls

/-- What a name stands for is listed, whatever its type. -/
theorem listEntry_returns (hchildren : ChildrenReturn sys fs subfix m path p) {n : Text}
    (hn : n ≠ text "." → n ≠ text ".." → n ∈ fs.children p) (calls : Nat) :
    ∃ new calls', (∀ fuel, m ≤ fuel →
        listEntry (listAllFile sys subfix fuel) (dType fs p) path subfix n ⟨fs, calls⟩ =
          some (new, ⟨fs, calls'⟩)) ∧
      Listed sys fs subfix path p (Through [n]) new := by
  by_cases hdots : n = text "." ∨ n = text ".."
  · refine ⟨[], calls, fun fuel _ => ?_, Listed.empty ?_⟩
    · rw [listEntry, dType, if_pos hdots]
      dsimp only
      rw [if_pos hdots]
    · intro rel ⟨n', hn', hhead⟩ hwanted
      rw [List.mem_singleton.mp hn'] at hhead
      obtain ⟨rel, rfl⟩ := List.head?_eq_some_iff.mp hhead
      obtain ⟨f, hf⟩ := hwanted.head
      obtain ⟨-, hdot, hdotdot, -⟩ := (fileAt_placed hf).1
      exact not_or.mpr ⟨hdot, hdotdot⟩ hdots
  · obtain ⟨hdot, hdotdot⟩ := not_or.mp hdots
    obtain ⟨f, hf⟩ := Option.ne_none_iff_exists'.mp (fileAt_child.mp (hn hdot hdotdot))
    have htype : dType fs p n = some f.type := by
      rw [dType, if_neg hdots, hf]
      rfl
    by_cases hdir : f.type = .directory
    · have hisdir := isDir_iff.mpr ⟨f, hf, hdir⟩
      obtain ⟨files, calls', hreturns, hlisted⟩ := hchildren n calls hisdir
      refine ⟨files, calls', fun fuel hfuel => ?_, hlisted.up hisdir⟩
      rw [listEntry, htype, hdir]
      dsimp only
      rw [if_neg hdots, hreturns fuel hfuel]
    · by_cases hregular : f.type = .regular
      · refine ⟨_, calls, fun fuel _ => ?_, Listed.file hf hregular⟩
        rw [listEntry, htype, hregular]
      · refine ⟨[], calls, fun fuel _ => ?_, Listed.empty ?_⟩
        · rw [listEntry, htype]
          cases hother : f.type with
          | directory => exact absurd hother hdir
          | regular => exact absurd hother hregular
          | symlink _ | fifo | socket | blockDevice | charDevice => rfl
        · intro rel ⟨n', hn', hhead⟩ hwanted
          rw [List.mem_singleton.mp hn'] at hhead
          obtain ⟨rel, rfl⟩ := List.head?_eq_some_iff.mp hhead
          have hisdir : fs.isDir (p ++ [n]) = false := by
            rw [isDir, hf, Option.any_some]
            exact decide_eq_false hdir
          obtain ⟨f', hf', htype'⟩ := hwanted.regular
          rw [List.append_cons] at hf'
          rw [below_of_not_dir hisdir hf', List.append_nil, hf] at hf'
          rw [Option.some.inj hf'] at hregular
          exact hregular htype'

/-- The loop lists what each of its names stands for. -/
theorem listEntries_returns (hchildren : ChildrenReturn sys fs subfix m path p)
    {names : List Text}
    (hnames : ∀ n ∈ names, n ≠ text "." → n ≠ text ".." → n ∈ fs.children p)
    (honce : NamesOnce sys → names.Nodup) (calls : Nat) :
    ∃ files calls', (∀ fuel, m ≤ fuel →
        listEntries (listAllFile sys subfix fuel) (dType fs p) path subfix names ⟨fs, calls⟩ =
          some (files, ⟨fs, calls'⟩)) ∧
      Listed sys fs subfix path p (Through names) files := by
  induction names generalizing calls with
  | nil =>
    refine ⟨[], calls, fun _ _ => rfl, Listed.empty ?_⟩
    intro rel ⟨n, hn, _⟩
    cases hn
  | cons n names ih =>
    obtain ⟨new, calls₁, hnew, hlisted⟩ :=
      listEntry_returns hchildren (hnames n List.mem_cons_self) calls
    obtain ⟨files, calls', hfiles, hrest⟩ := ih
      (fun n hn => hnames n (List.mem_cons_of_mem _ hn))
      (fun h => (List.nodup_cons.mp (honce h)).2) calls₁
    refine ⟨new ++ files, calls', fun fuel hfuel => ?_,
      hlisted.cons hrest fun h => (List.nodup_cons.mp (honce h)).1⟩
    rw [listEntries, hnew fuel hfuel, Option.bind_some]
    dsimp only
    rw [hfiles fuel hfuel]
    rfl

/-- A directory is listed when the directories in it are. -/
theorem returns_of_children (hpath : fs.follow path = some p) (hdir : fs.isDir p = true)
    (hchildren : ChildrenReturn sys fs subfix m path p) :
    Returns sys fs subfix (m + 1) path p calls := by
  have hstep : ∀ fuel, m + 1 ≤ fuel → ∃ k, fuel = k + 1 ∧ m ≤ k := fun fuel hfuel =>
    ⟨fuel - 1, by omega, by omega⟩
  have haccess : sys.access path ⟨fs, calls⟩ = (!sys.refuses calls, ⟨fs, calls + 1⟩) := by
    rw [Syscalls.access, hpath]
    rfl
  have hopendir : sys.opendir path ⟨fs, calls + 1⟩ =
      (if sys.refuses (calls + 1) then none
        else some (sys.listing (calls + 1) (fs.children p)), ⟨fs, calls + 2⟩) := by
    rw [Syscalls.opendir, hpath]
    dsimp only
    rw [hdir]
    cases sys.refuses (calls + 1)
    · rfl
    · rfl
  have hnothing : ∀ calls, sys.refuses calls = true →
      Listed sys fs subfix path p (fun _ => True) [] := by
    intro calls hrefused
    refine ⟨fun t ht => ?_, fun hobliging => ?_, fun _ => List.nodup_nil⟩
    · cases ht
    · rw [hobliging] at hrefused
      cases hrefused
  cases hrefused : sys.refuses calls with
  | true =>
    refine ⟨[], calls + 1, fun fuel hfuel => ?_, hnothing calls hrefused⟩
    obtain ⟨k, rfl, -⟩ := hstep fuel hfuel
    rw [listAllFile, haccess, hrefused]
    rfl
  | false =>
    rw [hrefused, Bool.not_false] at haccess
    cases hclosed : sys.refuses (calls + 1) with
    | true =>
      refine ⟨[], calls + 2, fun fuel hfuel => ?_, hnothing (calls + 1) hclosed⟩
      obtain ⟨k, rfl, -⟩ := hstep fuel hfuel
      rw [listAllFile, haccess]
      dsimp only
      rw [hpath, hopendir, hclosed]
      rfl
    | false =>
      rw [hclosed] at hopendir
      obtain ⟨files, calls', hfiles, hlisted⟩ := listEntries_returns hchildren
        (fun n hn hdot hdotdot =>
          (sys.mem_listing (calls + 1) (fs.children p) n hdot hdotdot).mp hn)
        (fun honce => honce (calls + 1) (fs.children p)) (calls + 2)
      refine ⟨files, calls', fun fuel hfuel => ?_, fun t ht => ?_,
        fun hobliging rel _ hwanted => ?_, hlisted.once⟩
      · obtain ⟨k, rfl, hk⟩ := hstep fuel hfuel
        rw [listAllFile, haccess]
        dsimp only
        rw [hpath, hopendir]
        exact hfiles k hk
      · obtain ⟨rel, -, hrel⟩ := hlisted.found t ht
        exact ⟨rel, trivial, hrel⟩
      · cases rel with
        | nil => exact absurd rfl hwanted.below
        | cons n rel =>
          obtain ⟨f, hf⟩ := hwanted.head
          obtain ⟨-, hdot, hdotdot, -⟩ := (fileAt_placed hf).1
          refine hlisted.all hobliging _ ⟨n, ?_, rfl⟩ hwanted
          rw [sys.mem_listing (calls + 1) (fs.children p) n hdot hdotdot, fileAt_child, hf]
          exact Option.some_ne_none f

/-- `ListAllFile` returns for every directory, by induction on the height of the tree below it. -/
theorem listAllFile_returns (hpath : fs.follow path = some p) (hdir : fs.isDir p = true)
    (hheight : Height fs p m) : Returns sys fs subfix (m + 1) path p calls := by
  induction m generalizing path p calls with
  | zero =>
    apply returns_of_children hpath hdir
    intro n calls hchild
    obtain ⟨f, hf, -⟩ := isDir_iff.mp hchild
    have hlen := hheight _ (List.prefix_append p [n]) (by rw [hf]; exact Option.some_ne_none f)
    rw [List.length_append, List.length_singleton] at hlen
    omega
  | succ m ih =>
    apply returns_of_children hpath hdir
    intro n calls hchild
    obtain ⟨f, hf, htype⟩ := isDir_iff.mp hchild
    refine ih (follow_child hpath hf (by rw [File.target, htype])) hchild ?_
    intro q hq hfile
    have hlen := hheight q ((List.prefix_append p [n]).trans hq) hfile
    rw [List.length_append, List.length_singleton]
    omega

/-- What is no directory is not listed. -/
theorem returns_nothing (sys : Syscalls) (subfix : Text) (calls : Nat)
    (h : ∀ p, fs.follow path = some p → fs.isDir p = false) :
    ∃ calls', ∀ fuel, 0 < fuel →
      listAllFile sys subfix fuel path ⟨fs, calls⟩ = some ([], ⟨fs, calls'⟩) := by
  cases haccess : (sys.access path ⟨fs, calls⟩).1 with
  | false =>
    refine ⟨calls + 1, fun fuel hfuel => ?_⟩
    obtain ⟨k, rfl⟩ := Nat.exists_eq_succ_of_ne_zero (Nat.ne_of_gt hfuel)
    have hpair : sys.access path ⟨fs, calls⟩ = (false, ⟨fs, calls + 1⟩) := Prod.ext haccess rfl
    rw [listAllFile, hpair]
  | true =>
    refine ⟨calls + 2, fun fuel hfuel => ?_⟩
    obtain ⟨k, rfl⟩ := Nat.exists_eq_succ_of_ne_zero (Nat.ne_of_gt hfuel)
    have hpair : sys.access path ⟨fs, calls⟩ = (true, ⟨fs, calls + 1⟩) := Prod.ext haccess rfl
    rw [listAllFile, hpair]
    dsimp only
    rw [Syscalls.opendir]
    cases hpath : fs.follow path with
    | none => rfl
    | some p =>
      dsimp only
      rw [h p hpath]
      rfl

/-- `ListAllFile` returns for every path, having changed no file. What it lists are paths of regular
files with the suffix below the directory that the path leads to, and each leads there. Unless a
call is refused none is missing, and none is there twice when no directory names one twice. The file
system fills in `d_type`. -/
theorem listAllFile_lists (sys : Syscalls) (subfix path : Text) (fs : FileSystem) (calls : Nat) :
    ∃ m files calls', (∀ fuel, m < fuel →
        listAllFile sys subfix fuel path ⟨fs, calls⟩ = some (files, ⟨fs, calls'⟩)) ∧
      (∀ t ∈ files, ∃ p rel, fs.follow path = some p ∧ Wanted fs p subfix rel ∧
        t = path ++ pathTo rel ∧ fs.follow t = some (p ++ rel)) ∧
      (sys.Obliging → ∀ p rel, fs.follow path = some p → Wanted fs p subfix rel →
        path ++ pathTo rel ∈ files) ∧
      (NamesOnce sys → files.Nodup) := by
  by_cases hdir : ∃ p, fs.follow path = some p ∧ fs.isDir p = true
  · obtain ⟨p, hpath, hdir⟩ := hdir
    obtain ⟨m, hheight⟩ := exists_height fs p
    have hreturns : Returns sys fs subfix (m + 1) path p calls :=
      listAllFile_returns hpath hdir hheight
    obtain ⟨files, calls', hlist, hlisted⟩ := hreturns
    refine ⟨m, files, calls', hlist, fun t ht => ?_, fun hobliging q rel hq hwanted => ?_,
      hlisted.once⟩
    · obtain ⟨rel, -, hwanted, rfl⟩ := hlisted.found t ht
      obtain ⟨f, hf, htype⟩ := hwanted.regular
      exact ⟨p, rel, hpath, hwanted, rfl, follow_below hpath hf (by rw [File.target, htype])⟩
    · rw [hpath] at hq
      obtain rfl := Option.some.inj hq
      exact hlisted.all hobliging rel trivial hwanted
  · have hnone : ∀ p, fs.follow path = some p → fs.isDir p = false := by
      intro p hpath
      rw [← Bool.not_eq_true]
      exact fun h => hdir ⟨p, hpath, h⟩
    obtain ⟨calls', hlist⟩ := returns_nothing sys subfix calls hnone
    refine ⟨0, [], calls', hlist, ?_, fun _ p rel hpath hwanted => ?_, fun _ => List.nodup_nil⟩
    · intro t ht
      cases ht
    · obtain ⟨f, hf, -⟩ := hwanted.regular
      exact absurd (below_of_not_dir (hnone p hpath) hf) hwanted.below

end Returns

end HxSylar.FSUtil
