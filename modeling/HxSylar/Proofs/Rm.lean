import HxSylar.FSUtil
import Mathlib.Data.Finset.Lattice.Fold
import Mathlib.Data.Nat.Bitwise

namespace HxSylar.FSUtil
open Lib Lib.FileSystem

/-- The types that have the bit of `S_IFDIR` among their own. -/
def TakenForDirectory (f : File) : Prop := f.type = .socket ∨ f.type = .blockDevice

/-- There is no such file at the place or below it. -/
def Clear (fs : FileSystem) (p : Place) : Prop :=
  ∀ q f, p <+: q → fs.fileAt q = some f → ¬TakenForDirectory f

/-- What `Rm` is to do with a path, for every order in which names are read. -/
structure RmLaws (fs : FileSystem) (path : Text) : Prop where
  absent : fs.lstat path = none → ∀ sys calls fuel,
    rm sys (fuel + 1) path ⟨fs, calls⟩ = some (true, ⟨fs, calls⟩)
  removes : ∀ p, fs.LeadsTo path p → fs.entry path = some p → ∀ sys calls, sys.Obliging →
    ∃ n w, (∀ fuel, n < fuel → rm sys fuel path ⟨fs, calls⟩ = some (true, w)) ∧
      ∀ q, w.fs.fileAt q = if p <+: q then none else fs.fileAt q
  refused : ∀ p, fs.LeadsTo path p → ∀ sys calls,
    ∃ n ret w, (∀ fuel, n < fuel → rm sys fuel path ⟨fs, calls⟩ = some (ret, w)) ∧
      (ret = true ↔ w.fs.lstat path = none) ∧ ∀ q, ¬p <+: q → w.fs.fileAt q = fs.fileAt q

section Mode

theorem mode_sIfdir (f : File) :
    f.mode &&& sIfdir = 0 ↔ f.type ≠ .directory ∧ ¬TakenForDirectory f := by
  have hperm : f.permissions.val &&& sIfdir = 0 := by
    have hpow : sIfdir = 2 ^ 14 := rfl
    rw [hpow, Nat.and_two_pow, Nat.testBit_lt_two_pow, Bool.toNat_false, Nat.zero_mul]
    exact Nat.lt_trans f.permissions.isLt (by decide)
  rw [File.mode, Nat.and_or_distrib_right, hperm, Nat.or_zero]
  rw [TakenForDirectory]
  cases f.type with
  | symlink target => simp [FileType.bits, sIfdir]
  | regular | directory | fifo | socket | blockDevice | charDevice => simp [FileType.bits, sIfdir]

theorem TakenForDirectory.not_dir {f : File} (h : TakenForDirectory f) : f.type ≠ .directory := by
  intro hdir
  rw [TakenForDirectory, hdir] at h
  rcases h with h | h
  · cases h
  · cases h

theorem TakenForDirectory.not_link {f : File} (h : TakenForDirectory f) : f.target = none := by
  rcases h with h | h
  · rw [File.target, h]
  · rw [File.target, h]

end Mode

section Returns
variable {sys : Syscalls} {path : Text} {p : Place} {w : World}

/-- What has happened when `Rm` of the file at a place returns. -/
structure Returned (fs : FileSystem) (p : Place) (ret : Bool) (fs' : FileSystem) : Prop where
  within : Within fs' fs
  outside : ∀ q, ¬p <+: q → fs'.fileAt q = fs.fileAt q
  ret_iff : ret = true ↔ fs'.fileAt p = none

/-- What has happened after the loop over some names of the directory at a place. Its result
is that of the last of them. -/
structure Emptied (fs : FileSystem) (p : Place) (ret ret' : Bool) (fs' : FileSystem) : Prop where
  within : Within fs' fs
  outside : ∀ q, ¬(p <+: q ∧ q ≠ p) → fs'.fileAt q = fs.fileAt q
  failed : ret' = false → (∃ n, fs'.fileAt (p ++ [n]) ≠ none) ∨ ret = false ∧ fs' = fs

/-- No file below the place is more than `m` levels below it. -/
def Height (fs : FileSystem) (p : Place) (m : Nat) : Prop :=
  ∀ q, p <+: q → fs.fileAt q ≠ none → q.length ≤ p.length + m

/-- `Rm` returns when it has fuel for more than `m` levels, and removes the file when nothing
prevents it. -/
def Finishes (sys : Syscalls) (m : Nat) (path : Text) (p : Place) (w : World) : Prop :=
  ∃ ret w', (∀ fuel, m < fuel → rm sys fuel path w = some (ret, w')) ∧
    Returned w.fs p ret w'.fs ∧
    (sys.Obliging → Clear w.fs p → w.fs.entry path = some p → w'.fs.fileAt p = none)

/-- The names are those of the files in the directory, besides `.` and `..`. -/
def Lists (fs : FileSystem) (p : Place) (names : List Text) : Prop :=
  ∀ n, n ≠ text "." → n ≠ text ".." → (n ∈ names ↔ n ∈ fs.children p)

/-- The loop over some names returns when there is fuel for `m` levels, and removes their files
when nothing prevents it. -/
def LoopFinishes (sys : Syscalls) (m : Nat) (path : Text) (p : Place) (names : List Text)
    (ret : Bool) (w : World) : Prop :=
  ∃ ret' w', (∀ fuel, m ≤ fuel → rmEntries (rm sys fuel) path names ret w = some (ret', w')) ∧
    Emptied w.fs p ret ret' w'.fs ∧
    (sys.Obliging → Clear w.fs p → ∀ n ∈ names, LegalName n → w'.fs.fileAt (p ++ [n]) = none)

theorem Clear.within {fs fs' : FileSystem} (h : Clear fs p) (hw : Within fs' fs) : Clear fs' p :=
  fun q f hq hf => h q f hq (hw.files q f hf)

theorem Height.within {fs fs' : FileSystem} {m : Nat} (h : Height fs p m) (hw : Within fs' fs) :
    Height fs' p m :=
  fun q hq hf => h q hq (fun hnone => hf (hw.none hnone))

theorem rm_absent (h : w.fs.lstat path = none) (fuel : Nat) :
    rm sys (fuel + 1) path w = some (true, w) := by
  rw [rm, h]

/-- A file without the bit is unlinked, whatever it is. -/
theorem finishes_unlink {f : File} (hlead : w.fs.LeadsTo path p) (hf : w.fs.fileAt p = some f)
    (hbit : f.mode &&& sIfdir = 0) (m : Nat) : Finishes sys m path p w := by
  have hlstat : w.fs.lstat path = some f := (lstat_eq hlead.resolve).trans hf
  have hfile : w.fs.isDir p = false := by
    rw [isDir, hf, Option.any_some]
    exact decide_eq_false ((mode_sIfdir f).mp hbit).1
  have hempty := children_of_not_dir hfile
  have hp : p ≠ [] := by
    rintro rfl
    rw [isDir, fileAt_nil] at hfile
    cases hfile
  have hrm : ∀ fuel, m < fuel → rm sys fuel path w =
      some (if sys.refuses w.calls then (false, ⟨w.fs, w.calls + 1⟩)
        else (true, ⟨w.fs.remove p, w.calls + 1⟩)) := by
    intro fuel hfuel
    obtain ⟨k, rfl⟩ := Nat.exists_eq_add_of_lt hfuel
    rw [rm, hlstat]
    dsimp only
    rw [if_pos hbit, unlink, hlstat, Option.isNone_some, Bool.and_false,
      if_neg Bool.false_ne_true, Syscalls.unlink_eq hlead.resolve hfile]
  cases hrefused : sys.refuses w.calls with
  | true =>
    rw [hrefused] at hrm
    refine ⟨false, ⟨w.fs, w.calls + 1⟩, hrm, ⟨Within.refl _, fun _ _ => rfl, ?_⟩, ?_⟩
    · exact iff_of_false Bool.false_ne_true (by rw [hf]; exact Option.some_ne_none f)
    · intro hobliging
      rw [hobliging] at hrefused
      cases hrefused
  | false =>
    rw [hrefused] at hrm
    have hgone : (w.fs.remove p).fileAt p = none := by
      rw [fileAt_remove hempty hp, if_pos rfl]
    refine ⟨true, ⟨w.fs.remove p, w.calls + 1⟩, hrm, ⟨Within.remove hempty hp, ?_, ?_⟩, ?_⟩
    · intro q hq
      rw [fileAt_remove hempty hp, if_neg]
      rintro rfl
      exact hq List.prefix_rfl
    · exact iff_of_true rfl hgone
    · exact fun _ _ _ => hgone

/-- What has the bit and is no directory cannot be opened. -/
theorem finishes_taken {f : File} (hlead : w.fs.LeadsTo path p) (hf : w.fs.fileAt p = some f)
    (htaken : TakenForDirectory f) (m : Nat) : Finishes sys m path p w := by
  have hlstat : w.fs.lstat path = some f := (lstat_eq hlead.resolve).trans hf
  have hbit : ¬f.mode &&& sIfdir = 0 := fun h => ((mode_sIfdir f).mp h).2 htaken
  refine ⟨false, ⟨w.fs, w.calls + 1⟩, ?_, ⟨Within.refl _, fun _ _ => rfl, ?_⟩, ?_⟩
  · intro fuel hfuel
    obtain ⟨k, rfl⟩ := Nat.exists_eq_add_of_lt hfuel
    rw [rm, hlstat]
    dsimp only
    rw [if_neg hbit, Syscalls.opendir_eq sys hlead.resolve hf htaken.not_link,
      if_neg (fun h => htaken.not_dir h.1)]
  · exact iff_of_false Bool.false_ne_true (by rw [hf]; exact Option.some_ne_none f)
  · intro _ hclear
    exact absurd htaken (hclear p f List.prefix_rfl hf)

theorem rmEntries_dots {f : Text → World → Option (Bool × World)} {names : List Text}
    (h : ∀ n ∈ names, n = text "." ∨ n = text "..") (ret : Bool) :
    rmEntries f path names ret w = some (ret, w) := by
  induction names with
  | nil => rfl
  | cons n names ih =>
    rw [rmEntries, if_pos (h n List.mem_cons_self)]
    exact ih fun n hn => h n (List.mem_cons_of_mem _ hn)

theorem Returned.outside_dir {fs fs' : FileSystem} {n : Text} {ret : Bool}
    (h : Returned fs (p ++ [n]) ret fs') :
    ∀ q, ¬(p <+: q ∧ q ≠ p) → fs'.fileAt q = fs.fileAt q := by
  intro q hq
  apply h.outside
  intro hpre
  refine hq ⟨(List.prefix_append p [n]).trans hpre, ?_⟩
  rintro rfl
  have hlen := hpre.length_le
  rw [List.length_append, List.length_singleton] at hlen
  omega

/-- A file that fails is still there after the loop, unless another one has its place in the
result. -/
theorem Emptied.after_child {fs fs₁ fs' : FileSystem} {n : Text} {ret ret₁ ret' : Bool}
    (h : Emptied fs₁ p ret₁ ret' fs') (hreturned : Returned fs (p ++ [n]) ret₁ fs₁) :
    Emptied fs p ret ret' fs' := by
  refine ⟨h.within.trans hreturned.within, ?_, ?_⟩
  · exact fun q hq => (h.outside q hq).trans (hreturned.outside_dir q hq)
  · intro hfalse
    rcases h.failed hfalse with hleft | ⟨hret₁, hsame⟩
    · exact .inl hleft
    · refine .inl ⟨n, ?_⟩
      rw [hsame]
      intro hnone
      rw [hreturned.ret_iff.mpr hnone] at hret₁
      cases hret₁

theorem LoopFinishes.dots {m : Nat} {n : Text} {names : List Text} {ret : Bool}
    (h : LoopFinishes sys m path p names ret w) (hdots : n = text "." ∨ n = text "..") :
    LoopFinishes sys m path p (n :: names) ret w := by
  obtain ⟨ret', w', hloop, hemptied, hgone⟩ := h
  refine ⟨ret', w', ?_, hemptied, ?_⟩
  · intro fuel hfuel
    rw [rmEntries, if_pos hdots]
    exact hloop fuel hfuel
  · intro hobliging hclear n' hn' hname
    rcases List.mem_cons.mp hn' with rfl | hn'
    · rcases hdots with h | h
      · exact absurd h hname.2.1
      · exact absurd h hname.2.2.1
    · exact hgone hobliging hclear n' hn' hname

/-- `Rm` of a name that the directory had when it was read. Its file may be gone already. -/
theorem rm_child {m : Nat} {n : Text}
    (hrm : ∀ {w : World} {path : Text} {p : Place}, w.fs.LeadsTo path p → Height w.fs p m →
      Finishes sys m path p w)
    (hlead : w.fs.LeadsTo path p) (hdir : w.fs.isDir p = true) (hheight : Height w.fs p (m + 1))
    (hname : LegalName n) :
    ∃ ret w', (∀ fuel, m < fuel → rm sys fuel (path ++ byte '/' :: n) w = some (ret, w')) ∧
      Returned w.fs (p ++ [n]) ret w'.fs ∧
      (sys.Obliging → Clear w.fs p → w'.fs.fileAt (p ++ [n]) = none) := by
  cases hf : w.fs.fileAt (p ++ [n]) with
  | none =>
    refine ⟨true, w, ?_, ⟨Within.refl _, fun _ _ => rfl, iff_of_true rfl hf⟩, fun _ _ => hf⟩
    intro fuel hfuel
    obtain ⟨k, rfl⟩ := Nat.exists_eq_add_of_lt hfuel
    apply rm_absent
    rw [lstat, resolve_no_child hlead.resolve hdir hname hf, Option.bind_none]
  | some f =>
    have hbelow : ∀ q, p ++ [n] <+: q → p <+: q :=
      fun q hq => (List.prefix_append p [n]).trans hq
    have hchild : Height w.fs (p ++ [n]) m := by
      intro q hq hfile
      have hlen := hheight q (hbelow q hq) hfile
      rw [List.length_append, List.length_singleton]
      omega
    obtain ⟨ret, w', hfirst, hreturned, hremoved⟩ := hrm (hlead.child hdir hf) hchild
    refine ⟨ret, w', hfirst, hreturned, fun hobliging hclear => ?_⟩
    exact hremoved hobliging (fun q f hq => hclear q f (hbelow q hq))
      (entry_child hlead.resolve hdir hname)

/-- The loop, when `Rm` finishes for every file in the directory. -/
theorem rmEntries_returns {m : Nat}
    (hrm : ∀ {w : World} {path : Text} {p : Place}, w.fs.LeadsTo path p → Height w.fs p m →
      Finishes sys m path p w)
    (hlead : w.fs.LeadsTo path p) (hdir : w.fs.isDir p = true) (hheight : Height w.fs p (m + 1))
    {names : List Text} (hlegal : ∀ n ∈ names, n = text "." ∨ n = text ".." ∨ LegalName n)
    (ret : Bool) : LoopFinishes sys (m + 1) path p names ret w := by
  induction names generalizing w ret with
  | nil =>
    refine ⟨ret, w, fun _ _ => rfl, ⟨Within.refl _, fun _ _ => rfl, fun h => .inr ⟨h, rfl⟩⟩, ?_⟩
    intro _ _ n hn
    cases hn
  | cons n names ih =>
    have hrest : ∀ n ∈ names, n = text "." ∨ n = text ".." ∨ LegalName n :=
      fun n hn => hlegal n (List.mem_cons_of_mem _ hn)
    by_cases hdots : n = text "." ∨ n = text ".."
    · exact (ih hlead hdir hheight hrest ret).dots hdots
    · have hname : LegalName n := by
        rcases hlegal n List.mem_cons_self with h | h | h
        · exact absurd (.inl h) hdots
        · exact absurd (.inr h) hdots
        · exact h
      obtain ⟨ret₁, w₁, hfirst, hreturned, hremoved⟩ := rm_child hrm hlead hdir hheight hname
      have hdir₁ : w₁.fs.isDir p = true := by
        rw [isDir, hreturned.outside_dir p (fun hq => hq.2 rfl)]
        exact hdir
      obtain ⟨ret', w', hloop, hemptied, hgone⟩ := ih
        (hlead.within hreturned.within hreturned.outside_dir) hdir₁
        (hheight.within hreturned.within) hrest ret₁
      refine ⟨ret', w', ?_, hemptied.after_child hreturned, ?_⟩
      · intro fuel hfuel
        rw [rmEntries, if_neg hdots, hfirst fuel hfuel]
        exact hloop fuel hfuel
      · intro hobliging hclear n' hn' hname'
        rcases List.mem_cons.mp hn' with rfl | hn'
        · exact hemptied.within.none (hremoved hobliging hclear)
        · exact hgone hobliging (hclear.within hreturned.within) n' hn' hname'

/-- The loop cannot have failed in a directory that is empty behind it. -/
theorem Emptied.succeeded {fs fs' : FileSystem} {ret : Bool} (h : Emptied fs p true ret fs')
    (hempty : fs'.children p = ∅) : ret = true := by
  cases hfalse : ret with
  | true => rfl
  | false =>
    rcases h.failed hfalse with ⟨n, hn⟩ | ⟨hret, -⟩
    · have hmem := fileAt_child.mpr hn
      rw [hempty] at hmem
      exact absurd hmem (Finset.notMem_empty n)
    · cases hret

theorem Lists.children_eq_empty {fs fs' : FileSystem} {names : List Text}
    (hnames : Lists fs p names) (h : Within fs' fs)
    (hgone : ∀ n ∈ names, LegalName n → fs'.fileAt (p ++ [n]) = none) : fs'.children p = ∅ := by
  apply Finset.eq_empty_of_forall_notMem
  intro n hn
  obtain ⟨f, hf⟩ := Option.ne_none_iff_exists'.mp (fileAt_child.mp hn)
  have hbefore := h.files _ f hf
  have hname := (fileAt_placed hbefore).1
  have hchild : n ∈ fs.children p := by
    rw [fileAt_child, hbefore]
    exact Option.some_ne_none f
  rw [hgone n ((hnames n hname.2.1 hname.2.2.1).mpr hchild) hname] at hf
  cases hf

/-- A directory goes when the loop has emptied it, and stays when one of its files does. -/
theorem finishes_dir {m : Nat} {f : File} (hlead : w.fs.LeadsTo path p)
    (hf : w.fs.fileAt p = some f) (htype : f.type = .directory)
    (hloop : ∀ names, Lists w.fs p names → LoopFinishes sys m path p names true ⟨w.fs, w.calls + 1⟩) :
    Finishes sys m path p w := by
  have hlstat : w.fs.lstat path = some f := (lstat_eq hlead.resolve).trans hf
  have hbit : ¬f.mode &&& sIfdir = 0 := fun h => ((mode_sIfdir f).mp h).1 htype
  have hopendir := Syscalls.opendir_eq sys hlead.resolve hf (by rw [File.target, htype])
  cases hrefused : sys.refuses w.calls with
  | true =>
    rw [if_neg (by simp [hrefused])] at hopendir
    refine ⟨false, ⟨w.fs, w.calls + 1⟩, ?_, ⟨Within.refl _, fun _ _ => rfl, ?_⟩, ?_⟩
    · intro fuel hfuel
      obtain ⟨k, rfl⟩ := Nat.exists_eq_add_of_lt hfuel
      rw [rm, hlstat]
      dsimp only
      rw [if_neg hbit, hopendir]
    · exact iff_of_false Bool.false_ne_true (by rw [hf]; exact Option.some_ne_none f)
    · intro hobliging
      rw [hobliging] at hrefused
      cases hrefused
  | false =>
    rw [if_pos ⟨htype, hrefused⟩] at hopendir
    obtain ⟨ret, w₂, hentries, hemptied, hgone⟩ := hloop _ (sys.mem_listing w.calls _)
    have hlead₂ := hlead.within hemptied.within hemptied.outside
    have hf₂ : w₂.fs.fileAt p = some f := by rw [hemptied.outside p (fun hq => hq.2 rfl), hf]
    have hrm : ∀ fuel, m < fuel → rm sys fuel path w =
        some ((sys.rmdir path w₂).1 && ret, (sys.rmdir path w₂).2) := by
      intro fuel hfuel
      obtain ⟨k, rfl⟩ := Nat.exists_eq_add_of_lt hfuel
      rw [rm, hlstat]
      dsimp only
      rw [if_neg hbit, hopendir]
      dsimp only
      rw [hentries (m + k) (Nat.le_add_right m k), Option.bind_some]
      dsimp only
      rcases sys.rmdir path w₂ with ⟨_ | _, w'⟩ <;> rfl
    rcases Syscalls.rmdir_cases sys path w₂ with ⟨p', hrmdir, hentry, hdir, hempty⟩ | hrmdir
    · obtain rfl : p = p' := by
        have hsame := resolve_of_entry hentry hdir
        rw [hlead₂.resolve] at hsame
        exact Option.some.inj hsame
      have hp := entry_ne_nil hentry
      have hnone : (w₂.fs.remove p).fileAt p = none := by
        rw [fileAt_remove hempty hp, if_pos rfl]
      rw [hrmdir, hemptied.succeeded hempty] at hrm
      refine ⟨true, _, hrm, ⟨(Within.remove hempty hp).trans hemptied.within, ?_, ?_⟩, ?_⟩
      · intro q hq
        have hother : q ≠ p := by
          rintro rfl
          exact hq List.prefix_rfl
        rw [fileAt_remove hempty hp, if_neg hother, hemptied.outside q (fun h => hq h.1)]
      · exact iff_of_true rfl hnone
      · exact fun _ _ _ => hnone
    · rw [hrmdir] at hrm
      refine ⟨false, _, hrm, ⟨hemptied.within, ?_, ?_⟩, ?_⟩
      · exact fun q hq => hemptied.outside q (fun h => hq h.1)
      · exact iff_of_false Bool.false_ne_true (by rw [hf₂]; exact Option.some_ne_none f)
      · intro hobliging hclear hentry
        have hentry₂ := entry_within hemptied.within hlead₂.resolve hentry
        have hempty : w₂.fs.children p = ∅ :=
          Lists.children_eq_empty (sys.mem_listing w.calls _) hemptied.within
            (hgone hobliging hclear)
        rw [Syscalls.rmdir_eq hentry₂ (isDir_iff.mpr ⟨f, hf₂, htype⟩) hempty (hobliging _)] at hrmdir
        cases hrmdir

/-- The types of files, and what `Rm` does with each. -/
theorem finishes_of_loop {m : Nat} (hlead : w.fs.LeadsTo path p)
    (hloop : w.fs.isDir p = true → ∀ names, Lists w.fs p names →
      LoopFinishes sys m path p names true ⟨w.fs, w.calls + 1⟩) : Finishes sys m path p w := by
  obtain ⟨f, hf⟩ := Option.ne_none_iff_exists'.mp (resolve_exists hlead.resolve)
  by_cases hbit : f.mode &&& sIfdir = 0
  · exact finishes_unlink hlead hf hbit m
  · by_cases hdir : f.type = .directory
    · exact finishes_dir hlead hf hdir (hloop (isDir_iff.mpr ⟨f, hf, hdir⟩))
    · have htaken : TakenForDirectory f := by
        by_contra hother
        exact hbit ((mode_sIfdir f).mpr ⟨hdir, hother⟩)
      exact finishes_taken hlead hf htaken m

/-- `Rm` finishes for every file, by induction on the height of the tree below it. -/
theorem rm_finishes {m : Nat} (hlead : w.fs.LeadsTo path p) (hheight : Height w.fs p m) :
    Finishes sys m path p w := by
  induction m generalizing w path p with
  | zero =>
    apply finishes_of_loop hlead
    intro _ names hnames
    have hdots : ∀ n ∈ names, n = text "." ∨ n = text ".." := by
      intro n hn
      by_contra h
      obtain ⟨hdot, hdots⟩ := not_or.mp h
      have hlen := hheight _ (List.prefix_append p [n])
        (fileAt_child.mp ((hnames n hdot hdots).mp hn))
      rw [List.length_append, List.length_singleton] at hlen
      omega
    refine ⟨true, _, fun _ _ => rmEntries_dots hdots true, ⟨Within.refl _, fun _ _ => rfl,
      fun h => .inr ⟨h, rfl⟩⟩, ?_⟩
    intro _ _ n hn hname
    rcases hdots n hn with h | h
    · exact absurd h hname.2.1
    · exact absurd h hname.2.2.1
  | succ m ih =>
    apply finishes_of_loop hlead
    intro hdir names hnames
    have hlegal : ∀ n ∈ names, n = text "." ∨ n = text ".." ∨ LegalName n := by
      intro n hn
      by_cases hdot : n = text "."
      · exact .inl hdot
      · by_cases hdots : n = text ".."
        · exact .inr (.inl hdots)
        · obtain ⟨f', hf'⟩ := Option.ne_none_iff_exists'.mp
            (fileAt_child.mp ((hnames n hdot hdots).mp hn))
          exact .inr (.inr (fileAt_placed hf').1)
    exact rmEntries_returns (w := ⟨w.fs, w.calls + 1⟩) ih hlead hdir hheight hlegal true

end Returns

section Taken
variable {sys : Syscalls} {q : Place} {f : File}

/-- `x` does not remove the file at a place. -/
def Spares (q : Place) (f : File) (x : Text → World → Option (Bool × World)) : Prop :=
  ∀ path w r, x path w = some r → w.fs.fileAt q = some f → r.2.fs.fileAt q = some f

theorem rmEntries_spares {x : Text → World → Option (Bool × World)} (hx : Spares q f x)
    {path : Text} {names : List Text} {ret : Bool} {w : World} {r : Bool × World}
    (h : rmEntries x path names ret w = some r) (hq : w.fs.fileAt q = some f) :
    r.2.fs.fileAt q = some f := by
  induction names generalizing ret w with
  | nil =>
    obtain rfl := Option.some.inj h
    exact hq
  | cons n names ih =>
    rw [rmEntries] at h
    split at h
    · exact ih h hq
    · obtain ⟨r₁, hfirst, hrest⟩ := Option.bind_eq_some_iff.mp h
      exact ih hrest (hx _ _ _ hfirst hq)

/-- A socket or a block device is neither unlinked nor removed as a directory. -/
theorem rm_spares (htaken : TakenForDirectory f) (fuel : Nat) : Spares q f (rm sys fuel) := by
  induction fuel with
  | zero =>
    intro path w r h
    cases h
  | succ fuel ih =>
    intro path w r h hq
    rw [rm] at h
    cases hlstat : w.fs.lstat path with
    | none =>
      rw [hlstat] at h
      obtain rfl := Option.some.inj h
      exact hq
    | some st =>
      rw [hlstat] at h
      dsimp only at h
      split at h
      · rename_i hbit
        obtain rfl := Option.some.inj h
        rw [unlink]
        split
        · exact hq
        · obtain ⟨p, hp, hst⟩ := Option.bind_eq_some_iff.mp hlstat
          have hother : q ≠ p := by
            rintro rfl
            rw [hq] at hst
            obtain rfl := Option.some.inj hst
            exact ((mode_sIfdir f).mp hbit).2 htaken
          rw [Syscalls.unlink, hp]
          dsimp only
          split
          · exact hq
          · exact (fileAt_remove_other hother).trans hq
      · have hfs := Syscalls.opendir_fs sys path w
        generalize sys.opendir path w = opened at h hfs
        obtain ⟨names, w₁⟩ := opened
        have hq₁ : w₁.fs.fileAt q = some f := by
          rw [show w₁.fs = w.fs from hfs, hq]
        cases names with
        | none =>
          obtain rfl := Option.some.inj h
          exact hq₁
        | some names =>
          obtain ⟨⟨ret, w₂⟩, hloop, hlast⟩ := Option.bind_eq_some_iff.mp h
          have hq₂ : w₂.fs.fileAt q = some f := rmEntries_spares ih hloop hq₁
          dsimp only at hlast
          rcases Syscalls.rmdir_cases sys path w₂ with ⟨p, hrmdir, -, hdir, -⟩ | hrmdir
          · rw [hrmdir] at hlast
            obtain rfl := Option.some.inj hlast
            have hother : q ≠ p := by
              rintro rfl
              obtain ⟨d, hd, htype⟩ := isDir_iff.mp hdir
              rw [hq₂] at hd
              obtain rfl := Option.some.inj hd
              exact htaken.not_dir htype
            exact (fileAt_remove_other hother).trans hq₂
          · rw [hrmdir] at hlast
            obtain rfl := Option.some.inj hlast
            exact hq₂

end Taken

section Laws
variable {fs : FileSystem} {path : Text} {p : Place}

theorem exists_height (fs : FileSystem) (p : Place) : ∃ m, Height fs p m := by
  refine ⟨fs.files.keys.sup List.length, fun q _ hq => ?_⟩
  rcases List.eq_nil_or_concat q with rfl | ⟨dir, n, rfl⟩
  · exact Nat.zero_le _
  · rw [List.concat_eq_append] at hq ⊢
    rw [fileAt_concat, ← Option.isSome_iff_ne_none, Finmap.lookup_isSome] at hq
    have hle := Finset.le_sup (f := List.length) (Finmap.mem_keys.mpr hq)
    exact Nat.le_trans hle (Nat.le_add_left _ _)

/-- A path leads nowhere when the file is gone that it led to. -/
theorem Returned.lstat_iff {ret : Bool} {fs' : FileSystem} (h : Returned fs p ret fs')
    (hlead : fs.LeadsTo path p) : fs'.lstat path = none ↔ fs'.fileAt p = none := by
  constructor
  · intro hlstat
    cases hf : fs'.fileAt p with
    | none => rfl
    | some f =>
      have hlead' : fs'.LeadsTo path p := by
        apply hlead.within h.within
        intro q hq
        by_cases hpre : p <+: q
        · obtain rfl : q = p := by
            by_contra hne
            exact hq ⟨hpre, hne⟩
          rw [hf, h.within.files _ f hf]
        · exact h.outside q hpre
      rw [lstat_eq hlead'.resolve, hf] at hlstat
      cases hlstat
  · intro hnone
    cases hres : fs'.resolve path with
    | none => rw [lstat, hres, Option.bind_none]
    | some q =>
      have hsame := resolve_within h.within hres
      rw [hlead.resolve] at hsame
      obtain rfl := Option.some.inj hsame
      exact absurd hnone (resolve_exists hres)

/-- A kernel need not refuse any call. -/
theorem exists_obliging : ∃ sys : Syscalls, ∀ calls, sys.refuses calls = false :=
  ⟨⟨fun _ => false, fun _ names => names.toList, fun _ _ _ _ _ => Finset.mem_toList⟩, fun _ => rfl⟩

/-- What `Rm` takes for a directory and is none is not removed. -/
theorem not_rmLaws {q : Place} {f : File} (hlead : fs.LeadsTo path p)
    (hentry : fs.entry path = some p) (hpre : p <+: q) (hq : fs.fileAt q = some f)
    (htaken : TakenForDirectory f) : ¬RmLaws fs path := by
  intro hlaws
  obtain ⟨sys, hobliging⟩ := exists_obliging
  obtain ⟨n, w, hrm, hgone⟩ := hlaws.removes p hlead hentry sys 0 hobliging
  have hkept := rm_spares htaken (n + 1) path _ _ (hrm (n + 1) (Nat.lt_succ_self n)) hq
  rw [hgone q, if_pos hpre] at hkept
  cases hkept

/-- `Rm` does what it is to do with all files but sockets and block devices, where `lstat` fails only
for a path that names nothing. -/
theorem rm_laws_iff (fs : FileSystem) (path : Text) :
    RmLaws fs path ↔ ∀ p, fs.LeadsTo path p → fs.entry path = some p → Clear fs p := by
  constructor
  · intro hlaws p hlead hentry q f hpre hq htaken
    exact not_rmLaws hlead hentry hpre hq htaken hlaws
  · intro hclear
    refine ⟨fun habsent sys calls fuel => rm_absent habsent fuel, ?_, ?_⟩
    · intro p hlead hentry sys calls hobliging
      obtain ⟨m, hm⟩ := exists_height fs p
      have hfinishes : Finishes sys m path p ⟨fs, calls⟩ := rm_finishes hlead hm
      obtain ⟨ret, w, hrm, hreturned, hgone⟩ := hfinishes
      have hnone := hgone hobliging (hclear p hlead hentry) hentry
      rw [hreturned.ret_iff.mpr hnone] at hrm
      refine ⟨m, w, hrm, fun q => ?_⟩
      split
      · rename_i hpre
        exact fileAt_below hnone hpre
      · rename_i hpre
        exact hreturned.outside q hpre
    · intro p hlead sys calls
      obtain ⟨m, hm⟩ := exists_height fs p
      have hfinishes : Finishes sys m path p ⟨fs, calls⟩ := rm_finishes hlead hm
      obtain ⟨ret, w, hrm, hreturned, -⟩ := hfinishes
      exact ⟨m, ret, w, hrm, hreturned.ret_iff.trans (hreturned.lstat_iff hlead).symm,
        hreturned.outside⟩

/-- A tree with a socket and nothing else. -/
def socketOnly : FileSystem where
  files := Finmap.singleton [text "s"] ⟨.socket, ⟨0o755, by decide⟩⟩
  cwd := []
  placed := by
    intro p f hf
    have hp : p = [text "s"] := by
      rw [← Finmap.mem_singleton, ← Finmap.lookup_isSome, hf]
      rfl
    refine ⟨[], text "s", ⟨.directory, 0o755⟩, hp, ?_, rfl, rfl⟩
    exact ⟨by decide, by decide, by decide, by decide⟩

/-- `Rm` leaves a socket where it is. -/
theorem rm_laws_socket : ¬RmLaws socketOnly (text "/s") := by
  have hf : socketOnly.fileAt ([] ++ [text "s"]) = some ⟨.socket, 0o755⟩ := rfl
  have hlaws : ¬RmLaws socketOnly (pathTo ([] ++ [text "s"])) :=
    not_rmLaws (leadsTo_pathTo hf) (entry_pathTo hf) List.prefix_rfl hf (.inl rfl)
  exact hlaws

end Laws

end HxSylar.FSUtil
