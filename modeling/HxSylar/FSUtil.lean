import HxSylar.Lib.Syscalls

namespace HxSylar.FSUtil
open Lib

def sIfdir : Nat := 0o040000

def unlink (sys : Syscalls) (filename : Text) (exist : Bool) (w : World) : Bool × World :=
  if !exist && (w.fs.lstat filename).isNone then (true, w) else sys.unlink filename w

/-- The loop of `Rm` over the names that `readdir` returns (util.cc:199-205). -/
def rmEntries (rm : Text → World → Option (Bool × World)) (path : Text) :
    List Text → Bool → World → Option (Bool × World)
  | [], ret, w => some (ret, w)
  | d_name :: names, ret, w =>
    if d_name = text "." ∨ d_name = text ".." then rmEntries rm path names ret w
    else
      (rm (path ++ byte '/' :: d_name) w).bind fun (ret, w) => rmEntries rm path names ret w

/-- `FSUtil::Rm` (util.cc:183-211) for a path without a null byte, with fuel for its recursion.
`lstat` fails only for a path that names nothing: not for a long one, nor for one that may not be
searched. A name that `readdir` is going to return is not removed before, so all of them are known
when the directory is opened. -/
def rm (sys : Syscalls) : Nat → Text → World → Option (Bool × World)
  | 0, _, _ => none
  | fuel + 1, path, w =>
    match w.fs.lstat path with
    | none => some (true, w)
    | some st =>
      if st.mode &&& sIfdir = 0 then some (unlink sys path false w)
      else
        match sys.opendir path w with
        | (none, w) => some (false, w)
        | (some names, w) =>
          (rmEntries (rm sys fuel) path names true w).bind fun (ret, w) =>
            match sys.rmdir path w with
            | (true, w) => some (ret, w)
            | (false, w) => some (false, w)

/-- `d_type` of a name that `readdir` returns, on a file system that fills it in. -/
def dType (fs : FileSystem) (dir : Place) (d_name : Text) : Option FileType :=
  if d_name = text "." ∨ d_name = text ".." then some .directory
  else (fs.fileAt (dir ++ [d_name])).map File.type

def hasSubfix (filename subfix : Text) : Bool :=
  if subfix = [] then true
  else if filename.length < subfix.length then false
  else filename.drop (filename.length - subfix.length) == subfix

/-- One turn of the loop of `ListAllFile` (util.cc:91-110): the files that it appends. -/
def listEntry (listDir : Text → World → Option (List Text × World)) (dType : Text → Option FileType)
    (path subfix d_name : Text) (w : World) : Option (List Text × World) :=
  match dType d_name with
  | some .directory =>
    if d_name = text "." ∨ d_name = text ".." then some ([], w)
    else listDir (path ++ byte '/' :: d_name) w
  | some .regular =>
    some (if hasSubfix d_name subfix then [path ++ byte '/' :: d_name] else [], w)
  | _ => some ([], w)

def listEntries (listDir : Text → World → Option (List Text × World))
    (dType : Text → Option FileType) (path subfix : Text) :
    List Text → World → Option (List Text × World)
  | [], w => some ([], w)
  | d_name :: names, w =>
    (listEntry listDir dType path subfix d_name w).bind fun (new, w) =>
      (listEntries listDir dType path subfix names w).map fun (files, w) => (new ++ files, w)

/-- `FSUtil::ListAllFile` (util.cc:81-112) with fuel for its recursion: what it appends to `files`. -/
def listAllFile (sys : Syscalls) (subfix : Text) : Nat → Text → World → Option (List Text × World)
  | 0, _, _ => none
  | fuel + 1, path, w =>
    match sys.access path w with
    | (false, w) => some ([], w)
    | (true, w) =>
      match w.fs.follow path, sys.opendir path w with
      | some dir, (some names, w) =>
        listEntries (listAllFile sys subfix fuel) (dType w.fs dir) path subfix names w
      | _, (_, w) => some ([], w)

end HxSylar.FSUtil
