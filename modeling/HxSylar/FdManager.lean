import Mathlib.Logic.Function.Basic
import HxSylar.Lib.Machine

namespace HxSylar

abbrev Flags := BitVec 32

def oNonblock : Flags := 0x800

/-- The bits `F_SETFL` can change on Linux, from `O_APPEND` to `O_NOATIME`. -/
def setflMask : Flags := 0x46c00

abbrev Kernel := Int → Option Flags

namespace Kernel

def setfl (k : Kernel) (fd : Int) (arg : Flags) : Kernel :=
  Function.update k fd ((k fd).map (fun flags =>
    (flags &&& ~~~setflMask) ||| (arg &&& setflMask)))

def fionbio (k : Kernel) (fd : Int) (v : Int) : Kernel :=
  Function.update k fd ((k fd).map (fun flags =>
    if v ≠ 0 then flags ||| oNonblock else flags &&& ~~~oNonblock))

end Kernel

structure FdCtx where
  isInit : Bool := false
  isSocket : Bool := false
  sysNonblock : Bool := false
  userNonblock : Bool := false
  isClosed : Bool := false
  fd : Int
  recvTimeout : UInt64 := 0xffffffffffffffff
  sendTimeout : UInt64 := 0xfffffffffffffffe
  deriving DecidableEq, Repr

namespace FdCtx

/-- `FdCtx::init` (fd_manager.cc:24-52). `fstat` succeeds on every open descriptor. The
flag is written when it is found set. -/
def init (c : FdCtx) (k : Kernel) : FdCtx × Kernel :=
  if c.isInit then (c, k)
  else
    let c := { c with recvTimeout := 0xffffffffffffffff, sendTimeout := 0xffffffffffffffff }
    match k c.fd with
    | none => ({ c with isInit := false, isSocket := false, sysNonblock := false,
                        userNonblock := false, isClosed := false }, k)
    | some flags =>
      let k := if flags &&& oNonblock ≠ 0 then k.setfl c.fd (flags ||| oNonblock) else k
      ({ c with isInit := true, isSocket := true, sysNonblock := true, userNonblock := false,
                isClosed := false }, k)

def soRcvtimeo : Int := 20

def setTimeout (c : FdCtx) (type : Int) (v : UInt64) : FdCtx :=
  if type = soRcvtimeo then { c with recvTimeout := v } else { c with sendTimeout := v }

def getTimeout (c : FdCtx) (type : Int) : UInt64 :=
  if type = soRcvtimeo then c.recvTimeout else c.sendTimeout

def create (fd : Int) (k : Kernel) : FdCtx × Kernel := init { fd := fd } k

end FdCtx

abbrev CtxId := Nat

/-- `FdManager` (fd_manager.h:40-49) with its contexts. Nothing enlarges `m_datas`. -/
structure FdManager where
  datas : List (Option CtxId) := List.replicate 64 none
  ctxs : List FdCtx := []
  deriving DecidableEq, Repr

namespace FdManager

def entry (m : FdManager) (fd : Int) : Option (Option CtxId) :=
  if 0 ≤ fd then m.datas[fd.toNat]? else none

def insert (m : FdManager) (k : Kernel) (fd : Int) : Option (FdManager × Kernel × Option CtxId) :=
  (m.entry fd).map (fun _ =>
    let (c, k) := FdCtx.create fd k
    ({ datas := m.datas.set fd.toNat (some m.ctxs.length), ctxs := m.ctxs ++ [c] }, k,
      some m.ctxs.length))

/-- `FdManager::get` (fd_manager.cc:68-84). `none` is an access outside `m_datas`. -/
def get (m : FdManager) (k : Kernel) (fd : Int) (autoCreate : Bool) :
    Option (FdManager × Kernel × Option CtxId) :=
  if (m.datas.length : Int) ≤ fd then
    if !autoCreate then some (m, k, none) else m.insert k fd
  else
    match m.entry fd with
    | none => none
    | some e => if e.isSome || !autoCreate then some (m, k, e) else m.insert k fd

def del (m : FdManager) (fd : Int) : Option FdManager :=
  if (m.datas.length : Int) ≤ fd then some m
  else (m.entry fd).map (fun _ => { m with datas := m.datas.set fd.toNat none })

def setUserNonblock (m : FdManager) (i : CtxId) (v : Bool) : FdManager :=
  { m with ctxs := m.ctxs.modify i (fun c => { c with userNonblock := v }) }

inductive Access
  | get (fd : Int) (autoCreate : Bool)
  | del (fd : Int)
  deriving DecidableEq, Repr

def access (m : FdManager) (k : Kernel) : Access → Option (FdManager × Option CtxId)
  | .get fd autoCreate => (m.get k fd autoCreate).map (fun r => (r.1, r.2.2))
  | .del fd => (m.del fd).map (fun m => (m, none))

def accesses (m : FdManager) : List (Kernel × Access) → Option (List (Option CtxId))
  | [] => some []
  | (k, a) :: as => (m.access k a).bind (fun r => (r.1.accesses as).map (fun rs => r.2 :: rs))

end FdManager

structure Hooked where
  manager : FdManager := {}
  kernel : Kernel := fun _ => none

namespace Hooked

/-- The context that `fcntl` and `ioctl` go through; `none` is an access outside `m_datas`. -/
def socketCtx (s : Hooked) (fd : Int) : Option (Option (CtxId × FdCtx)) :=
  (s.manager.get s.kernel fd false).map (fun r =>
    r.2.2.bind (fun i => (s.manager.ctxs[i]?).bind (fun c =>
      if c.isClosed || !c.isSocket then none else some (i, c))))

/-- `socket` (hook.cc:206-216) and the end of `accept` (hook.cc:299-306). -/
def created (s : Hooked) (fd : Int) (flags : Flags) : Option Hooked :=
  if 0 ≤ fd ∧ s.kernel fd = none then
    (s.manager.get (Function.update s.kernel fd (some flags)) fd true).map (fun r =>
      { manager := r.1, kernel := r.2.1 })
  else none

def fcntlSetfl (s : Hooked) (fd : Int) (arg : Flags) : Option Hooked :=
  if s.kernel fd = none then none
  else
    (s.socketCtx fd).map (fun r =>
      match r with
      | none => { s with kernel := s.kernel.setfl fd arg }
      | some (i, c) =>
        let arg' := if c.sysNonblock then arg ||| oNonblock else arg &&& ~~~oNonblock
        { manager := s.manager.setUserNonblock i (arg &&& oNonblock != 0)
          kernel := s.kernel.setfl fd arg' })

def fcntlGetfl (s : Hooked) (fd : Int) : Option Flags :=
  (s.kernel fd).bind (fun arg =>
    (s.socketCtx fd).map (fun r =>
      match r with
      | none => arg
      | some (_, c) => if c.userNonblock then arg ||| oNonblock else arg &&& ~~~oNonblock))

def ioctlFionbio (s : Hooked) (fd : Int) (v : Int) : Option Hooked :=
  if s.kernel fd = none then none
  else
    (s.socketCtx fd).map (fun r =>
      { manager := match r with
          | none => s.manager
          | some (i, _) => s.manager.setUserNonblock i (v != 0)
        kernel := s.kernel.fionbio fd v })

/-- `close` (hook.cc:360-374) without the wait it ends. -/
def close (s : Hooked) (fd : Int) : Option Hooked :=
  if s.kernel fd = none then none
  else
    (s.manager.get s.kernel fd false).bind (fun r =>
      let m := if r.2.2.isSome then s.manager.del fd else some s.manager
      m.map (fun m => { manager := m, kernel := Function.update s.kernel fd none }))

inductive Call
  | socket (fd : Int) (flags : Flags)
  | accept (fd : Int) (flags : Flags)
  | fcntlSetfl (fd : Int) (arg : Flags)
  | fcntlGetfl (fd : Int)
  | ioctlFionbio (fd : Int) (v : Int)
  | close (fd : Int)
  deriving DecidableEq, Repr

def Call.run (s : Hooked) : Call → Option Hooked
  | socket fd flags | accept fd flags => s.created fd flags
  | fcntlSetfl fd arg => s.fcntlSetfl fd arg
  | fcntlGetfl fd => (s.fcntlGetfl fd).map (fun _ => s)
  | ioctlFionbio fd v => s.ioctlFionbio fd v
  | close fd => s.close fd

def machine : Lib.Machine Hooked Call where
  init s := s = {}
  step := Call.run

end Hooked
end HxSylar
