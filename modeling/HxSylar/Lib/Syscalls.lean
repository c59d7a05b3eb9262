import HxSylar.Lib.Path

namespace HxSylar.Lib

/-- The files, and how many calls that may be refused have been made. -/
structure World where
  fs : FileSystem
  calls : Nat := 0

/-- What a process does not control: which of its calls are refused, for whatever reason, and the
order in which the names of a directory are read, `.` and `..` among them. -/
structure Syscalls where
  refuses : Nat → Bool
  listing : Nat → Finset Text → List Text
  mem_listing : ∀ calls names n, n ≠ text "." → n ≠ text ".." →
    (n ∈ listing calls names ↔ n ∈ names)

namespace Syscalls
open FileSystem

section Calls
variable (sys : Syscalls)

/-- `unlink`. -/
def unlink (path : Text) (w : World) : Bool × World :=
  match w.fs.resolve path with
  | none => (false, ⟨w.fs, w.calls + 1⟩)
  | some p =>
    if w.fs.isDir p || sys.refuses w.calls then (false, ⟨w.fs, w.calls + 1⟩)
    else (true, ⟨w.fs.remove p, w.calls + 1⟩)

/-- `rmdir`. -/
def rmdir (path : Text) (w : World) : Bool × World :=
  match w.fs.entry path with
  | none => (false, ⟨w.fs, w.calls + 1⟩)
  | some p =>
    if w.fs.isDir p && w.fs.children p = ∅ && !sys.refuses w.calls then
      (true, ⟨w.fs.remove p, w.calls + 1⟩)
    else (false, ⟨w.fs, w.calls + 1⟩)

/-- `opendir`, with all that `readdir` is going to return. It follows a symbolic link. -/
def opendir (path : Text) (w : World) : Option (List Text) × World :=
  match w.fs.follow path with
  | none => (none, ⟨w.fs, w.calls + 1⟩)
  | some p =>
    if w.fs.isDir p && !sys.refuses w.calls then
      (some (sys.listing w.calls (w.fs.children p)), ⟨w.fs, w.calls + 1⟩)
    else (none, ⟨w.fs, w.calls + 1⟩)

/-- `access(path, F_OK) == 0`. -/
def access (path : Text) (w : World) : Bool × World :=
  ((w.fs.follow path).isSome && !sys.refuses w.calls, ⟨w.fs, w.calls + 1⟩)

/-- No call is refused that could succeed. -/
def Obliging : Prop := ∀ calls, sys.refuses calls = false

end Calls

section Rules
variable {sys : Syscalls} {path : Text} {p : Place} {w : World}

theorem unlink_eq (h : w.fs.resolve path = some p) (hfile : w.fs.isDir p = false) :
    sys.unlink path w = if sys.refuses w.calls then (false, ⟨w.fs, w.calls + 1⟩)
      else (true, ⟨w.fs.remove p, w.calls + 1⟩) := by
  rw [unlink, h]
  dsimp only
  rw [hfile, Bool.false_or]

/-- A directory is removed when it is empty. -/
theorem rmdir_cases (sys : Syscalls) (path : Text) (w : World) :
    (∃ p, sys.rmdir path w = (true, ⟨w.fs.remove p, w.calls + 1⟩) ∧
      w.fs.entry path = some p ∧ w.fs.isDir p = true ∧ w.fs.children p = ∅) ∨
    sys.rmdir path w = (false, ⟨w.fs, w.calls + 1⟩) := by
  cases hentry : w.fs.entry path with
  | none =>
    right
    rw [rmdir, hentry]
  | some p =>
    rw [rmdir, hentry]
    dsimp only
    split
    · rename_i hall
      rw [Bool.and_eq_true, Bool.and_eq_true, decide_eq_true_eq] at hall
      exact .inl ⟨p, rfl, rfl, hall.1.1, hall.1.2⟩
    · exact .inr rfl

theorem rmdir_eq (hentry : w.fs.entry path = some p) (hdir : w.fs.isDir p = true)
    (hempty : w.fs.children p = ∅) (hgrant : sys.refuses w.calls = false) :
    sys.rmdir path w = (true, ⟨w.fs.remove p, w.calls + 1⟩) := by
  rw [rmdir, hentry]
  dsimp only
  rw [hdir, hgrant, decide_eq_true hempty]
  rfl

/-- A directory is opened, and no other file that the path itself leads to. -/
theorem opendir_eq (sys : Syscalls) (h : w.fs.resolve path = some p) {f : File} (hf : w.fs.fileAt p = some f)
    (htarget : f.target = none) :
    sys.opendir path w =
      (if f.type = .directory ∧ sys.refuses w.calls = false then
        some (sys.listing w.calls (w.fs.children p)) else none, ⟨w.fs, w.calls + 1⟩) := by
  rw [opendir, follow_of_resolve h hf htarget]
  dsimp only
  rw [isDir, hf, Option.any_some]
  by_cases hopen : f.type = .directory ∧ sys.refuses w.calls = false
  · rw [if_pos hopen, if_pos (by simpa using hopen)]
  · rw [if_neg hopen, if_neg (by simpa using hopen)]

theorem opendir_fs (sys : Syscalls) (path : Text) (w : World) :
    (sys.opendir path w).2.fs = w.fs := by
  rw [opendir]
  split
  · rfl
  · split
    · rfl
    · rfl

end Rules
end Syscalls
end HxSylar.Lib
