import HxSylar.FdManager

namespace HxSylar

/-- The read-locked part of `get(fd, true)` (fd_manager.cc:69-78). The outer `none` is an access
outside `m_datas`, the inner one a miss. -/
def FdManager.lookup (m : FdManager) (fd : Int) : Option (Option CtxId) :=
  if (m.datas.length : Int) ≤ fd then some none else m.entry fd

inductive Setting
  | timeout (type : Int) (v : UInt64)
  | userNonblock (v : Bool)
  deriving DecidableEq, Repr

def FdCtx.apply (c : FdCtx) : Setting → FdCtx
  | .timeout type v => c.setTimeout type v
  | .userNonblock v => { c with userNonblock := v }

/-- `FdManager` between several threads: `missed` are those that gave the read lock back and do
not hold the write lock yet, `returned` what the calls of `get` returned. -/
structure SharedManager where
  manager : FdManager := {}
  missed : Nat → Option Int := fun _ => none
  returned : List (Int × CtxId) := []

namespace SharedManager

inductive Act
  | lookup (thread : Nat) (fd : Int)
  | insert (thread : Nat) (k : Kernel)
  | set (fd : Int) (i : CtxId) (setting : Setting)

/-- A thread in `get` does nothing else, and a context is used after it was returned. -/
def step (s : SharedManager) : Act → Option SharedManager
  | .lookup thread fd =>
    if s.missed thread = none then
      (s.manager.lookup fd).map (fun e =>
        match e with
        | some i => { s with returned := (fd, i) :: s.returned }
        | none => { s with missed := Function.update s.missed thread (some fd) })
    else none
  | .insert thread k =>
    (s.missed thread).bind (fun fd => (s.manager.insert k fd).bind (fun r => r.2.2.map (fun i =>
      { manager := r.1
        missed := Function.update s.missed thread none
        returned := (fd, i) :: s.returned })))
  | .set fd i setting =>
    if (fd, i) ∈ s.returned then
      some { s with manager := { s.manager with
        ctxs := s.manager.ctxs.modify i (fun c => c.apply setting) } }
    else none

def machine : Lib.Machine SharedManager Act where
  init s := s = {}
  step := step

end SharedManager
end HxSylar
