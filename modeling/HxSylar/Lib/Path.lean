import HxSylar.Lib.FileSystem
import Mathlib.Data.List.DropRight

namespace HxSylar.Lib.FileSystem

/-- The parts of a path between its slashes. -/
def components (path : Text) : List Text := path.splitOn (byte '/')

/-- Where the way along a path begins. -/
def start (cur : Place) (path : Text) : Place := if path.head? = some (byte '/') then [] else cur

/-- The way along the parts of a path from a directory, following at most `links` symbolic links:
how many may still be followed, and the place. -/
def walk (fs : FileSystem) (links : Nat) (cur : Place) : List Text → Option (Nat × Place)
  | [] => some (links, cur)
  | c :: rest =>
    if fs.isDir cur then
      if c = [] ∨ c = text "." then walk fs links cur rest
      else if c = text ".." then walk fs links cur.dropLast rest
      else
        match fs.fileAt (cur ++ [c]) with
        | none => none
        | some f =>
          match f.target with
          | none => walk fs links (cur ++ [c]) rest
          | some target =>
            if links = 0 then none
            else walk fs (links - 1) (start cur target) (components target ++ rest)
    else none
termination_by cs => (links, cs.length)

/-- `MAXSYMLINKS`. -/
def maxLinks : Nat := 40

/-- The way along a path, a symbolic link at its end followed. -/
def follow (fs : FileSystem) (path : Text) : Option Place :=
  if path = [] then none
  else (fs.walk maxLinks (start fs.cwd path) (components path)).map Prod.snd

/-- The way along a path, a symbolic link at its end not followed. -/
def resolve (fs : FileSystem) (path : Text) : Option Place :=
  if path = [] then none
  else
    (fs.walk maxLinks (start fs.cwd path) (components path).dropLast).bind fun (links, dir) =>
      let p := dir ++ [(components path).getLastD []]
      if ((fs.fileAt p).bind File.target).isSome then some p
      else (fs.walk links dir [(components path).getLastD []]).map Prod.snd

/-- The directory entry that a path names. Slashes at its end do not count, and a path that ends
in `.` or `..` names none. -/
def entry (fs : FileSystem) (path : Text) : Option Place :=
  let parts := (components path).rdropWhile (· = [])
  parts.getLast?.bind fun n =>
    if n = text "." ∨ n = text ".." then none
    else (fs.walk maxLinks (start fs.cwd path) parts.dropLast).map fun (_, dir) => dir ++ [n]

/-- `lstat`. -/
def lstat (fs : FileSystem) (path : Text) : Option File := (fs.resolve path).bind fs.fileAt

section Walk
variable {fs : FileSystem} {links : Nat} {cur : Place}

theorem walk_append (fs : FileSystem) (links : Nat) (cur : Place) (s t : List Text) :
    fs.walk links cur (s ++ t) = (fs.walk links cur s).bind fun r => fs.walk r.1 r.2 t := by
  fun_induction walk fs links cur s with
  | case1 links cur => rfl
  | case2 links cur c rest hdir hstay ih =>
    rw [List.cons_append, walk, if_pos hdir, if_pos hstay, ih]
  | case3 links cur rest hdir hstay ih =>
    rw [List.cons_append, walk, if_pos hdir, if_neg hstay, if_pos rfl, ih]
  | case4 links cur c rest hdir hstay hup hnone =>
    rw [List.cons_append, walk, if_pos hdir, if_neg hstay, if_neg hup, hnone]
    rfl
  | case5 links cur c rest hdir hstay hup f hf htarget ih =>
    rw [List.cons_append, walk, if_pos hdir, if_neg hstay, if_neg hup, hf]
    dsimp only
    rw [htarget]
    exact ih
  | case6 cur c rest hdir hstay hup f hf target htarget =>
    rw [List.cons_append, walk, if_pos hdir, if_neg hstay, if_neg hup, hf]
    dsimp only
    rw [htarget]
    rfl
  | case7 links cur c rest hdir hstay hup f hf target htarget hlinks ih =>
    rw [List.cons_append, walk, if_pos hdir, if_neg hstay, if_neg hup, hf]
    dsimp only
    rw [htarget]
    dsimp only
    rw [if_neg hlinks, ← List.append_assoc]
    exact ih
  | case8 links cur c rest hdir =>
    rw [List.cons_append, walk, if_neg hdir]
    rfl

theorem walk_within {fs' : FileSystem} (h : Within fs' fs) {s : List Text} {r : Nat × Place}
    (hwalk : fs'.walk links cur s = some r) : fs.walk links cur s = some r := by
  fun_induction walk fs' links cur s with
  | case1 links cur =>
    rw [walk]
    exact hwalk
  | case2 links cur c rest hdir hstay ih =>
    rw [walk, if_pos (h.isDir hdir), if_pos hstay, ih hwalk]
  | case3 links cur rest hdir hstay ih =>
    rw [walk, if_pos (h.isDir hdir), if_neg hstay, if_pos rfl, ih hwalk]
  | case4 links cur c rest hdir hstay hup hnone => cases hwalk
  | case5 links cur c rest hdir hstay hup f hf htarget ih =>
    rw [walk, if_pos (h.isDir hdir), if_neg hstay, if_neg hup, h.files _ f hf]
    dsimp only
    rw [htarget]
    exact ih hwalk
  | case6 cur c rest hdir hstay hup f hf target htarget => cases hwalk
  | case7 links cur c rest hdir hstay hup f hf target htarget hlinks ih =>
    rw [walk, if_pos (h.isDir hdir), if_neg hstay, if_neg hup, h.files _ f hf]
    dsimp only
    rw [htarget]
    dsimp only
    rw [if_neg hlinks]
    exact ih hwalk
  | case8 links cur c rest hdir => cases hwalk

/-- A way with steps leads to a file. -/
theorem walk_exists {s : List Text} {r : Nat × Place} (hwalk : fs.walk links cur s = some r) :
    s = [] ∧ r = (links, cur) ∨ fs.fileAt r.2 ≠ none := by
  have hthere : ∀ {dir : Place}, fs.isDir dir = true → fs.fileAt dir ≠ none := by
    intro dir hdir
    obtain ⟨f, hf, -⟩ := isDir_iff.mp hdir
    rw [hf]
    exact Option.some_ne_none f
  fun_induction walk fs links cur s with
  | case1 links cur => exact .inl ⟨rfl, (Option.some.inj hwalk).symm⟩
  | case2 links cur c rest hdir hstay ih =>
    rcases ih hwalk with ⟨-, rfl⟩ | h
    · exact .inr (hthere hdir)
    · exact .inr h
  | case3 links cur rest hdir hstay ih =>
    rcases ih hwalk with ⟨-, rfl⟩ | h
    · exact .inr (hthere (isDir_dropLast hdir))
    · exact .inr h
  | case4 links cur c rest hdir hstay hup hnone => cases hwalk
  | case5 links cur c rest hdir hstay hup f hf htarget ih =>
    rcases ih hwalk with ⟨-, rfl⟩ | h
    · exact .inr (by rw [hf]; exact Option.some_ne_none f)
    · exact .inr h
  | case6 cur c rest hdir hstay hup f hf target htarget => cases hwalk
  | case7 links cur c rest hdir hstay hup f hf target htarget hlinks ih =>
    rcases ih hwalk with ⟨hnil, -⟩ | h
    · exact absurd (List.append_eq_nil_iff.mp hnil).1 (List.splitOn_ne_nil _ _)
    · exact .inr h
  | case8 links cur c rest hdir => cases hwalk

theorem walk_name {n : Text} {f : File} (hf : fs.fileAt (cur ++ [n]) = some f)
    (htarget : f.target = none) : fs.walk links cur [n] = some (links, cur ++ [n]) := by
  obtain ⟨⟨hne, hdot, hdots, -⟩, hdir⟩ := fileAt_placed hf
  rw [walk, if_pos hdir, if_neg (not_or.mpr ⟨hne, hdot⟩), if_neg hdots, hf]
  dsimp only
  rw [htarget]
  exact walk.eq_1 _ _ _

theorem walk_missing {n : Text} (hn : LegalName n) (hf : fs.fileAt (cur ++ [n]) = none) :
    fs.walk links cur [n] = none := by
  obtain ⟨hne, hdot, hdots, -⟩ := hn
  rw [walk, if_neg (not_or.mpr ⟨hne, hdot⟩), if_neg hdots, hf]
  split
  · rfl
  · rfl

theorem walk_blanks {blanks : List Text} (h : ∀ c ∈ blanks, c = []) (hdir : fs.isDir cur = true) :
    fs.walk links cur blanks = some (links, cur) := by
  induction blanks with
  | nil => rw [walk]
  | cons c blanks ih =>
    rw [walk, if_pos hdir, if_pos (.inl (h c List.mem_cons_self)),
      ih fun c hc => h c (List.mem_cons_of_mem _ hc)]

end Walk

section Resolve
variable {fs fs' : FileSystem} {path : Text} {p : Place}

theorem components_eq (path : Text) :
    components path = (components path).dropLast ++ [(components path).getLastD []] := by
  have hne : components path ≠ [] := List.splitOn_ne_nil _ _
  rw [List.getLastD_eq_getLast?, List.getLast?_eq_some_getLast hne, Option.getD_some,
    List.dropLast_append_getLast hne]

/-- The two ways a path is resolved: at a symbolic link it ends, otherwise it goes on. -/
theorem resolve_cases (h : fs.resolve path = some p) :
    path ≠ [] ∧ ∃ links dir,
      fs.walk maxLinks (start fs.cwd path) (components path).dropLast = some (links, dir) ∧
      ((∃ f, fs.fileAt p = some f ∧ f.target ≠ none ∧
          p = dir ++ [(components path).getLastD []]) ∨
        (fs.fileAt (dir ++ [(components path).getLastD []])).bind File.target = none ∧
          ∃ links', fs.walk links dir [(components path).getLastD []] = some (links', p)) := by
  rw [resolve] at h
  split at h
  · cases h
  · rename_i hne
    obtain ⟨⟨links, dir⟩, hwalk, hlast⟩ := Option.bind_eq_some_iff.mp h
    refine ⟨hne, links, dir, hwalk, ?_⟩
    dsimp only at hlast
    split at hlast
    · rename_i hlink
      obtain rfl := Option.some.inj hlast
      obtain ⟨target, htarget⟩ := Option.isSome_iff_exists.mp hlink
      obtain ⟨f, hf, hftarget⟩ := Option.bind_eq_some_iff.mp htarget
      exact .inl ⟨f, hf, by rw [hftarget]; exact Option.some_ne_none _, rfl⟩
    · rename_i hlink
      obtain ⟨⟨links', q⟩, hq, rfl⟩ := Option.map_eq_some_iff.mp hlast
      exact .inr ⟨Option.not_isSome_iff_eq_none.mp hlink, links', hq⟩

theorem resolve_exists (h : fs.resolve path = some p) : fs.fileAt p ≠ none := by
  obtain ⟨-, links, dir, -, ⟨f, hf, -, -⟩ | ⟨-, links', hlast⟩⟩ := resolve_cases h
  · rw [hf]
    exact Option.some_ne_none f
  · rcases walk_exists hlast with ⟨hnil, -⟩ | hexists
    · cases hnil
    · exact hexists

theorem lstat_eq (h : fs.resolve path = some p) : fs.lstat path = fs.fileAt p := by
  rw [lstat, h, Option.bind_some]

/-- A path to anything but a symbolic link leads there also when links at its end are followed. -/
theorem walk_of_resolve (h : fs.resolve path = some p) {f : File} (hf : fs.fileAt p = some f)
    (htarget : f.target = none) :
    ∃ links, fs.walk maxLinks (start fs.cwd path) (components path) = some (links, p) := by
  obtain ⟨-, links, dir, hwalk, ⟨f', hf', hlink, -⟩ | ⟨-, links', hlast⟩⟩ := resolve_cases h
  · rw [hf] at hf'
    obtain rfl := Option.some.inj hf'
    exact absurd htarget hlink
  · refine ⟨links', ?_⟩
    rw [components_eq path, walk_append, hwalk]
    exact hlast

theorem follow_of_resolve (h : fs.resolve path = some p) {f : File} (hf : fs.fileAt p = some f)
    (htarget : f.target = none) : fs.follow path = some p := by
  obtain ⟨links, hwalk⟩ := walk_of_resolve h hf htarget
  rw [follow, if_neg (resolve_cases h).1, hwalk]
  rfl

theorem walk_of_resolve_dir (h : fs.resolve path = some p) (hdir : fs.isDir p = true) :
    ∃ links, fs.walk maxLinks (start fs.cwd path) (components path) = some (links, p) := by
  obtain ⟨f, hf, htype⟩ := isDir_iff.mp hdir
  exact walk_of_resolve h hf (by rw [File.target, htype])

/-- Where a path leads in what is left of a tree it led before. -/
theorem resolve_within (hw : Within fs' fs) (h : fs'.resolve path = some p) :
    fs.resolve path = some p := by
  obtain ⟨hne, links, dir, hwalk, hlast⟩ := resolve_cases h
  rw [hw.cwd_eq] at hwalk
  have hwalk' := walk_within hw hwalk
  rw [resolve, if_neg hne, hwalk', Option.bind_some]
  dsimp only
  rcases hlast with ⟨f, hf, htarget, rfl⟩ | ⟨hnolink, links', hlast⟩
  · rw [hw.files _ f hf, Option.bind_some, if_pos (Option.isSome_iff_ne_none.mpr htarget)]
  · rw [if_neg, walk_within hw hlast]
    · rfl
    · -- a link of the whole tree at the end is either left, or nothing leads through its name
      intro hlink
      obtain ⟨target, htarget⟩ := Option.isSome_iff_exists.mp hlink
      obtain ⟨f, hf, hftarget⟩ := Option.bind_eq_some_iff.mp htarget
      cases hf' : fs'.fileAt (dir ++ [(components path).getLastD []]) with
      | none =>
        rw [walk_missing (fileAt_placed hf).1 hf'] at hlast
        cases hlast
      | some f' =>
        have hsame := hw.files _ f' hf'
        rw [hf] at hsame
        obtain rfl := Option.some.inj hsame
        rw [hf', Option.bind_some, hftarget] at hnolink
        cases hnolink

section Child
variable {n : Text}

theorem components_child (path : Text) (hn : byte '/' ∉ n) :
    components (path ++ byte '/' :: n) = components path ++ [n] := by
  rw [components, List.splitOn_append_cons_self, List.splitOn_eq_singleton hn]
  rfl

theorem start_child (hne : path ≠ []) (rest : Text) : start p (path ++ rest) = start p path := by
  cases path with
  | nil => exact absurd rfl hne
  | cons c path => rfl

/-- A path leads to the file of its last name, in the directory to which the rest of it leads. -/
theorem resolve_name {init : List Text} {n : Text} {links : Nat} {dir : Place} (hne : path ≠ [])
    (hparts : components path = init ++ [n])
    (hwalk : fs.walk maxLinks (start fs.cwd path) init = some (links, dir)) {f : File}
    (hf : fs.fileAt (dir ++ [n]) = some f) : fs.resolve path = some (dir ++ [n]) := by
  rw [resolve, if_neg hne, hparts, List.dropLast_concat, List.getLastD_concat, hwalk,
    Option.bind_some]
  dsimp only
  rw [hf, Option.bind_some]
  split
  · rfl
  · rename_i hlink
    rw [walk_name hf (Option.not_isSome_iff_eq_none.mp hlink)]
    rfl

/-- The path of a file in a directory leads to it. -/
theorem resolve_child (h : fs.resolve path = some p) (hdir : fs.isDir p = true) {f : File}
    (hf : fs.fileAt (p ++ [n]) = some f) :
    fs.resolve (path ++ byte '/' :: n) = some (p ++ [n]) := by
  obtain ⟨links, hwalk⟩ := walk_of_resolve_dir h hdir
  have hparts := components_child path (fileAt_placed hf).1.2.2.2
  rw [← start_child (resolve_cases h).1 (byte '/' :: n)] at hwalk
  exact resolve_name (by simp) hparts hwalk hf

theorem resolve_no_child (h : fs.resolve path = some p) (hdir : fs.isDir p = true)
    (hn : LegalName n) (hf : fs.fileAt (p ++ [n]) = none) :
    fs.resolve (path ++ byte '/' :: n) = none := by
  obtain ⟨links, hwalk⟩ := walk_of_resolve_dir h hdir
  rw [resolve, if_neg (by simp), components_child path hn.2.2.2, start_child (resolve_cases h).1,
    List.dropLast_concat, List.getLastD_concat, hwalk, Option.bind_some]
  dsimp only
  rw [hf, walk_missing hn hf]
  rfl

theorem entry_child (h : fs.resolve path = some p) (hdir : fs.isDir p = true) (hn : LegalName n) :
    fs.entry (path ++ byte '/' :: n) = some (p ++ [n]) := by
  obtain ⟨links, hwalk⟩ := walk_of_resolve_dir h hdir
  obtain ⟨hne, hdot, hdots, hslash⟩ := hn
  have hparts : (components path ++ [n]).rdropWhile (· = []) = components path ++ [n] :=
    List.rdropWhile_concat_neg _ _ _ (by simpa using hne)
  rw [entry, components_child path hslash, start_child (resolve_cases h).1]
  dsimp only
  rw [hparts, List.getLast?_concat, Option.bind_some, if_neg (not_or.mpr ⟨hdot, hdots⟩),
    List.dropLast_concat, hwalk]
  rfl

end Child

section Entry

theorem entry_eq (fs : FileSystem) {init blanks : List Text} {n : Text}
    (hsplit : components path = init ++ n :: blanks) (hblanks : ∀ c ∈ blanks, c = []) (hn : n ≠ []) :
    fs.entry path = if n = text "." ∨ n = text ".." then none
      else (fs.walk maxLinks (start fs.cwd path) init).map fun r => r.2 ++ [n] := by
  have hparts : (components path).rdropWhile (· = []) = init ++ [n] := by
    have hgone : blanks.rdropWhile (· = []) = [] := by
      rw [List.rdropWhile_eq_nil_iff]
      intro c hc
      exact decide_eq_true (hblanks c hc)
    have hkept : (init ++ [n]).rdropWhile (· = []) = init ++ [n] :=
      List.rdropWhile_concat_neg _ _ _ (by simpa using hn)
    rw [hsplit, List.append_cons, List.rdropWhile, List.reverse_append, List.dropWhile_append]
    rw [List.rdropWhile, List.reverse_eq_nil_iff] at hgone
    rw [hgone]
    exact hkept
  rw [entry]
  dsimp only
  rw [hparts, List.getLast?_concat, Option.bind_some, List.dropLast_concat]

/-- The parts of a path with an entry: the way to its directory, its name and slashes behind. -/
theorem entry_cases (h : fs.entry path = some p) : ∃ init n blanks links dir,
    components path = init ++ n :: blanks ∧ (∀ c ∈ blanks, c = []) ∧ n ≠ [] ∧ p = dir ++ [n] ∧
      fs.walk maxLinks (start fs.cwd path) init = some (links, dir) := by
  rw [entry] at h
  obtain ⟨n, hlast, h⟩ := Option.bind_eq_some_iff.mp h
  split at h
  · cases h
  · obtain ⟨⟨links, dir⟩, hwalk, rfl⟩ := Option.map_eq_some_iff.mp h
    have hne : (components path).rdropWhile (· = []) ≠ [] := by
      intro hnil
      rw [hnil] at hlast
      cases hlast
    have hname := List.rdropWhile_last_not (· = []) (components path) hne
    obtain ⟨init, hinit⟩ := List.getLast?_eq_some_iff.mp hlast
    refine ⟨_, n, (components path).rtakeWhile (· = []), links, dir, ?_, ?_, ?_, rfl, hwalk⟩
    · have hsplit : (components path).rdropWhile (· = []) ++
          (components path).rtakeWhile (· = []) = components path :=
        List.rdropWhile_append_rtakeWhile
      rw [hinit, List.dropLast_concat]
      rw [hinit, List.append_assoc] at hsplit
      exact hsplit.symm
    · intro c hc
      simpa using List.mem_rtakeWhile_imp hc
    · simpa [hinit] using hname

theorem entry_ne_nil (h : fs.entry path = some p) : p ≠ [] := by
  obtain ⟨-, n, -, -, dir, -, -, -, rfl, -⟩ := entry_cases h
  simp

/-- A path with the entry of a directory leads to the directory. -/
theorem resolve_of_entry (h : fs.entry path = some p) (hdir : fs.isDir p = true) :
    fs.resolve path = some p := by
  obtain ⟨init, n, blanks, links, dir, hsplit, hblanks, hn, rfl, hwalk⟩ := entry_cases h
  obtain ⟨f, hf, htype⟩ := isDir_iff.mp hdir
  have htarget : f.target = none := by rw [File.target, htype]
  have hpath : path ≠ [] := by
    rintro rfl
    rw [components, List.splitOn_nil] at hsplit
    cases init with
    | nil => exact hn (List.cons.inj hsplit).1.symm
    | cons c init => simp at hsplit
  rcases List.eq_nil_or_concat blanks with rfl | ⟨blanks', c, rfl⟩
  · exact resolve_name hpath hsplit hwalk hf
  · -- with slashes at the end the way goes on to the directory and stays there
    rw [List.concat_eq_append] at hsplit hblanks
    obtain rfl := hblanks c (by simp)
    have hstay : ∀ c ∈ blanks', c = [] := fun c hc => hblanks c (List.mem_append_left _ hc)
    have hnone : fs.fileAt (dir ++ [n] ++ [[]]) = none := by
      cases hf' : fs.fileAt (dir ++ [n] ++ [[]]) with
      | none => rfl
      | some f' => exact absurd rfl (fileAt_placed hf').1.1
    have hall : components path = init ++ [n] ++ blanks' ++ [[]] := by
      rw [hsplit]
      simp
    rw [resolve, if_neg hpath, hall, List.dropLast_concat, List.getLastD_concat, walk_append,
      walk_append, hwalk,
      Option.bind_some, walk_name hf htarget, Option.bind_some, walk_blanks hstay hdir,
      Option.bind_some]
    dsimp only
    rw [hnone, Option.bind_none, if_neg (by simp), walk_blanks (by simp) hdir]
    rfl

/-- As long as a path leads somewhere it keeps its entry. -/
theorem entry_within (hw : Within fs' fs) {q : Place} (hleads : fs'.resolve path = some q)
    (h : fs.entry path = some p) : fs'.entry path = some p := by
  obtain ⟨init, n, blanks, links, dir, hsplit, hblanks, hn, rfl, hwalk⟩ := entry_cases h
  obtain ⟨-, links', dir', hwalk', -⟩ := resolve_cases hleads
  rw [hsplit, List.dropLast_append_of_ne_nil (List.cons_ne_nil n blanks), walk_append] at hwalk'
  obtain ⟨r, hinit, -⟩ := Option.bind_eq_some_iff.mp hwalk'
  have hsame := hinit
  rw [hw.cwd_eq] at hsame
  have hr := walk_within hw hsame
  rw [hwalk] at hr
  rw [entry_eq fs hsplit hblanks hn, hwalk] at h
  rw [entry_eq fs' hsplit hblanks hn, hinit, ← Option.some.inj hr]
  exact h

end Entry

end Resolve

section LeadsTo
variable {fs fs' : FileSystem} {path : Text} {p : Place}

/-- The path leads to the place, and goes on doing so when files below it are removed: it does not
lead through them. -/
def LeadsTo (fs : FileSystem) (path : Text) (p : Place) : Prop :=
  ∀ fs', Within fs' fs → (∀ q, ¬(p <+: q ∧ q ≠ p) → fs'.fileAt q = fs.fileAt q) →
    fs'.resolve path = some p

namespace LeadsTo

theorem resolve (h : LeadsTo fs path p) : fs.resolve path = some p :=
  h fs (Within.refl fs) (fun _ _ => rfl)

theorem within (h : LeadsTo fs path p) (hw : Within fs' fs)
    (hout : ∀ q, ¬(p <+: q ∧ q ≠ p) → fs'.fileAt q = fs.fileAt q) : LeadsTo fs' path p := by
  intro fs'' hw' hout'
  exact h fs'' (hw'.trans hw) (fun q hq => (hout' q hq).trans (hout q hq))

theorem child (h : LeadsTo fs path p) (hdir : fs.isDir p = true) {n : Text} {f : File}
    (hf : fs.fileAt (p ++ [n]) = some f) : LeadsTo fs (path ++ byte '/' :: n) (p ++ [n]) := by
  intro fs' hw hout
  have hkept : ∀ q, ¬(p <+: q ∧ q ≠ p) → fs'.fileAt q = fs.fileAt q := by
    intro q hq
    apply hout
    rintro ⟨hpre, -⟩
    refine hq ⟨(List.prefix_append p [n]).trans hpre, ?_⟩
    rintro rfl
    have hlen := hpre.length_le
    rw [List.length_append, List.length_singleton] at hlen
    omega
  have hdir' : fs'.isDir p = true := by
    rw [isDir, hkept p (fun hq => hq.2 rfl)]
    exact hdir
  have hf' : fs'.fileAt (p ++ [n]) = some f := by
    rw [hout _ (fun hq => hq.2 rfl), hf]
  exact resolve_child (h fs' hw hkept) hdir' hf'

end LeadsTo

/-- The path of a place from the root. -/
def pathTo (p : Place) : Text := p.flatMap (byte '/' :: ·)

theorem components_pathTo (hlegal : ∀ n ∈ p, byte '/' ∉ n) : components (pathTo p) = [] :: p := by
  induction p using List.reverseRecOn with
  | nil => rfl
  | append_singleton p n ih =>
    have hn : byte '/' ∉ n := hlegal n (by simp)
    have hpath : pathTo (p ++ [n]) = pathTo p ++ byte '/' :: n := by
      simp [pathTo]
    rw [hpath, components_child _ hn, ih fun n hn => hlegal n (by simp [hn])]
    rfl

/-- The way along the names of a place to its directory. -/
theorem walk_place {n : Text} {f : File} (hf : fs.fileAt (p ++ [n]) = some f) :
    fs.walk maxLinks [] p = some (maxLinks, p) ∧ ∀ m ∈ p ++ [n], byte '/' ∉ m := by
  induction p using List.reverseRecOn generalizing n f with
  | nil =>
    refine ⟨walk.eq_1 _ _ _, fun m hm => ?_⟩
    rw [List.nil_append, List.mem_singleton] at hm
    rw [hm]
    exact (fileAt_placed hf).1.2.2.2
  | append_singleton p m ih =>
    obtain ⟨hn, hdir⟩ := fileAt_placed hf
    obtain ⟨d, hd, htype⟩ := isDir_iff.mp hdir
    obtain ⟨hwalk, hlegal⟩ := ih hd
    constructor
    · rw [walk_append, hwalk, Option.bind_some]
      exact walk_name hd (by rw [File.target, htype])
    · intro m' hm'
      rcases List.mem_append.mp hm' with hm' | hm'
      · exact hlegal m' hm'
      · rw [List.mem_singleton.mp hm']
        exact hn.2.2.2

/-- The parts of the path of a place lead to its directory. -/
theorem walk_pathTo {n : Text} {f : File} (hf : fs.fileAt (p ++ [n]) = some f) :
    components (pathTo (p ++ [n])) = [] :: p ++ [n] ∧
      fs.walk maxLinks (start fs.cwd (pathTo (p ++ [n]))) ([] :: p) = some (maxLinks, p) := by
  obtain ⟨hwalk, hlegal⟩ := walk_place hf
  have hstart : start fs.cwd (pathTo (p ++ [n])) = [] := by
    cases p with
    | nil => rfl
    | cons c p => rfl
  refine ⟨components_pathTo hlegal, ?_⟩
  rw [hstart, walk, if_pos (isDir_iff.mpr ⟨_, fileAt_nil fs, rfl⟩), if_pos (.inl rfl)]
  exact hwalk

/-- The path of a place leads to it. -/
theorem leadsTo_pathTo {n : Text} {f : File} (hf : fs.fileAt (p ++ [n]) = some f) :
    LeadsTo fs (pathTo (p ++ [n])) (p ++ [n]) := by
  intro fs' hw hout
  have hf' : fs'.fileAt (p ++ [n]) = some f := by
    rw [hout _ (fun hq => hq.2 rfl), hf]
  obtain ⟨hparts, hwalk⟩ := walk_pathTo hf'
  exact resolve_name (by simp [pathTo]) hparts hwalk hf'

theorem entry_pathTo {n : Text} {f : File} (hf : fs.fileAt (p ++ [n]) = some f) :
    fs.entry (pathTo (p ++ [n])) = some (p ++ [n]) := by
  obtain ⟨hparts, hwalk⟩ := walk_pathTo hf
  obtain ⟨hne, hdot, hdots, -⟩ := (fileAt_placed hf).1
  rw [entry_eq fs hparts (by simp) hne, if_neg (not_or.mpr ⟨hdot, hdots⟩), hwalk]
  rfl

end LeadsTo

end HxSylar.Lib.FileSystem
