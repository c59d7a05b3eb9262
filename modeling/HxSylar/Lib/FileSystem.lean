import HxSylar.Lib.Text
import Mathlib.Algebra.Ring.Nat
import Mathlib.Data.Finmap

namespace HxSylar.Lib

/-- The types of files, a symbolic link with the path it holds. -/
inductive FileType
  | regular
  | directory
  | symlink (target : Text)
  | fifo
  | socket
  | blockDevice
  | charDevice
  deriving DecidableEq, Repr

/-- The bits of the type in `st_mode`, as Linux has them. -/
def FileType.bits : FileType → Nat
  | .socket => 0o140000
  | .symlink _ => 0o120000
  | .regular => 0o100000
  | .blockDevice => 0o060000
  | .directory => 0o040000
  | .charDevice => 0o020000
  | .fifo => 0o010000

structure File where
  type : FileType
  permissions : Fin 0o10000
  deriving DecidableEq, Repr

namespace File

/-- `st_mode`. -/
def mode (f : File) : Nat := f.type.bits ||| f.permissions.val

/-- Where a symbolic link leads. -/
def target (f : File) : Option Text :=
  match f.type with
  | .symlink target => some target
  | _ => none

end File

/-- Where a file is: the names on the way to it from the root. -/
abbrev Place := List Text

/-- A name that a file can have. -/
def LegalName (n : Text) : Prop := n ≠ [] ∧ n ≠ text "." ∧ n ≠ text ".." ∧ byte '/' ∉ n

/-- The file at a place. The root is a directory. -/
def fileIn (files : Finmap (fun _ : Place => File)) (p : Place) : Option File :=
  if p = [] then some ⟨.directory, 0o755⟩ else files.lookup p

/-- A tree of files, as a process in one of its directories sees it. Every file lies in a
directory. -/
structure FileSystem where
  files : Finmap (fun _ : Place => File)
  cwd : Place
  placed : ∀ p f, files.lookup p = some f → ∃ dir n d,
    p = dir ++ [n] ∧ LegalName n ∧ fileIn files dir = some d ∧ d.type = .directory

namespace FileSystem

def fileAt (fs : FileSystem) (p : Place) : Option File := fileIn fs.files p

def isDir (fs : FileSystem) (p : Place) : Bool :=
  (fs.fileAt p).any (fun f => f.type = .directory)

/-- The names of the files in a directory. -/
def children (fs : FileSystem) (dir : Place) : Finset Text :=
  (fs.files.keys.filter (fun p => p ≠ [] ∧ p.dropLast = dir)).image (fun p => p.getLastD [])

theorem mem_children {fs : FileSystem} {dir : Place} {n : Text} :
    n ∈ fs.children dir ↔ fs.files.lookup (dir ++ [n]) ≠ none := by
  rw [children, Finset.mem_image, ← Option.isSome_iff_ne_none, Finmap.lookup_isSome]
  constructor
  · intro ⟨p, hp, hlast⟩
    obtain ⟨hkey, hne, hdir⟩ := Finset.mem_filter.mp hp
    have hsplit : dir ++ [n] = p := by
      obtain ⟨dir', n', rfl⟩ := (List.eq_nil_or_concat p).resolve_left hne
      simp_all
    rw [hsplit]
    exact Finmap.mem_keys.mp hkey
  · intro hmem
    refine ⟨dir ++ [n], ?_, by simp⟩
    rw [Finset.mem_filter]
    exact ⟨Finmap.mem_keys.mpr hmem, by simp, by simp⟩

/-- Without a file that has no others below it the files still lie in directories. -/
theorem placed_erase (fs : FileSystem) {p : Place} (h : fs.children p = ∅) :
    ∀ q f, (fs.files.erase p).lookup q = some f → ∃ dir n d,
      q = dir ++ [n] ∧ LegalName n ∧ fileIn (fs.files.erase p) dir = some d ∧
        d.type = .directory := by
  intro q f hq
  have hne : q ≠ p := by
    rintro rfl
    rw [Finmap.lookup_erase] at hq
    cases hq
  rw [Finmap.lookup_erase_ne hne] at hq
  obtain ⟨dir, n, d, rfl, hn, hd, htype⟩ := fs.placed q f hq
  refine ⟨dir, n, d, rfl, hn, ?_, htype⟩
  have hdir : dir ≠ p := by
    rintro rfl
    have hmem := mem_children.mpr (Option.ne_none_iff_exists'.mpr ⟨f, hq⟩)
    rw [h] at hmem
    exact Finset.notMem_empty n hmem
  rw [fileIn] at hd ⊢
  rwa [Finmap.lookup_erase_ne hdir]

/-- The tree without the file at a place, unless there are files below it. -/
def remove (fs : FileSystem) (p : Place) : FileSystem :=
  if h : fs.children p = ∅ then ⟨fs.files.erase p, fs.cwd, fs.placed_erase h⟩ else fs

section Places
variable {fs : FileSystem} {p : Place} {f : File}

theorem fileAt_nil (fs : FileSystem) : fs.fileAt [] = some ⟨.directory, 0o755⟩ := rfl

theorem fileAt_concat (fs : FileSystem) (dir : Place) (n : Text) :
    fs.fileAt (dir ++ [n]) = fs.files.lookup (dir ++ [n]) := if_neg (by simp)

theorem isDir_iff : fs.isDir p = true ↔ ∃ f, fs.fileAt p = some f ∧ f.type = .directory := by
  rw [isDir, Option.any_eq_true_iff_get]
  constructor
  · intro ⟨hsome, htype⟩
    exact ⟨_, Option.eq_some_of_isSome hsome, of_decide_eq_true htype⟩
  · intro ⟨f, hf, htype⟩
    rw [hf]
    exact ⟨rfl, decide_eq_true htype⟩

/-- A file has a legal name and lies in a directory. -/
theorem fileAt_placed {dir : Place} {n : Text} (h : fs.fileAt (dir ++ [n]) = some f) :
    LegalName n ∧ fs.isDir dir = true := by
  rw [fileAt_concat] at h
  obtain ⟨dir', n', d, heq, hn, hd, htype⟩ := fs.placed _ f h
  obtain ⟨rfl, hlast⟩ := List.append_inj' heq rfl
  obtain rfl : n = n' := List.singleton_inj.mp hlast
  exact ⟨hn, isDir_iff.mpr ⟨d, hd, htype⟩⟩

theorem isDir_dropLast (h : fs.isDir p = true) : fs.isDir p.dropLast = true := by
  rcases List.eq_nil_or_concat p with rfl | ⟨dir, n, rfl⟩
  · exact h
  · rw [List.concat_eq_append] at h ⊢
    obtain ⟨f, hf, -⟩ := isDir_iff.mp h
    rw [List.dropLast_concat]
    exact (fileAt_placed hf).2

theorem fileAt_child {n : Text} : n ∈ fs.children p ↔ fs.fileAt (p ++ [n]) ≠ none := by
  rw [mem_children, fileAt_concat]

/-- Below a place without a file there is none. -/
theorem fileAt_below (h : fs.fileAt p = none) {q : Place} (hq : p <+: q) : fs.fileAt q = none := by
  obtain ⟨rest, rfl⟩ := hq
  induction rest using List.reverseRecOn with
  | nil => rwa [List.append_nil]
  | append_singleton rest n ih =>
    cases hf : fs.fileAt (p ++ (rest ++ [n])) with
    | none => rfl
    | some f =>
      rw [← List.append_assoc] at hf
      obtain ⟨d, hd, -⟩ := isDir_iff.mp (fileAt_placed hf).2
      rw [ih] at hd
      cases hd

theorem children_of_not_dir (h : fs.isDir p = false) : fs.children p = ∅ := by
  apply Finset.eq_empty_of_forall_notMem
  intro n hn
  obtain ⟨f, hf⟩ := Option.ne_none_iff_exists'.mp (fileAt_child.mp hn)
  rw [(fileAt_placed hf).2] at h
  cases h

theorem fileAt_remove_other {q : Place} (hq : q ≠ p) :
    (fs.remove p).fileAt q = fs.fileAt q := by
  rw [remove]
  split
  · rw [fileAt, fileAt, fileIn, fileIn, Finmap.lookup_erase_ne hq]
  · rfl

theorem fileAt_remove (h : fs.children p = ∅) (hp : p ≠ []) (q : Place) :
    (fs.remove p).fileAt q = if q = p then none else fs.fileAt q := by
  by_cases hq : q = p
  · rw [if_pos hq, hq, remove, dif_pos h, fileAt, fileIn, if_neg hp, Finmap.lookup_erase]
  · rw [if_neg hq, fileAt_remove_other hq]

end Places

/-- What is left of a tree after files were removed. -/
structure Within (fs' fs : FileSystem) : Prop where
  cwd_eq : fs'.cwd = fs.cwd
  files : ∀ p f, fs'.fileAt p = some f → fs.fileAt p = some f

namespace Within
variable {fs fs' : FileSystem}

theorem refl (fs : FileSystem) : Within fs fs := ⟨rfl, fun _ _ h => h⟩

theorem trans {fs'' : FileSystem} (h : Within fs'' fs') (h' : Within fs' fs) : Within fs'' fs :=
  ⟨h.cwd_eq.trans h'.cwd_eq, fun p f hf => h'.files p f (h.files p f hf)⟩

theorem isDir (h : Within fs' fs) {p : Place} (hp : fs'.isDir p = true) : fs.isDir p = true := by
  obtain ⟨f, hf, htype⟩ := isDir_iff.mp hp
  exact isDir_iff.mpr ⟨f, h.files p f hf, htype⟩

theorem none (h : Within fs' fs) {p : Place} (hp : fs.fileAt p = none) : fs'.fileAt p = none := by
  cases hf : fs'.fileAt p with
  | none => rfl
  | some f =>
    have hfs := h.files p f hf
    rw [hp] at hfs
    cases hfs

theorem remove {p : Place} (h : fs.children p = ∅) (hp : p ≠ []) : Within (fs.remove p) fs where
  cwd_eq := by
    rw [FileSystem.remove, dif_pos h]
  files := by
    intro q f hf
    rw [fileAt_remove h hp] at hf
    split at hf
    · cases hf
    · exact hf

end Within

end FileSystem
end HxSylar.Lib
