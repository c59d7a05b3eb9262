import Mathlib.Data.List.Basic
import HxSylar.Lib.Machine

namespace HxSylar

def intMax : Nat := 2147483647

/-- A file descriptor as the callers pass it: an `int` that is not negative. -/
structure Fd where
  val : Nat
  isInt : val ≤ intMax
  deriving DecidableEq, Repr

def castInt (n : Nat) : Int :=
  let low := n % 4294967296
  if low ≤ intMax then low else (low : Int) - 4294967296

/-- A context that drops out of the table is not freed, so an identity is never used again. -/
abbrev ContextId := Nat

/-- `m_fdContexts` (iomanager.h:72) between two locked regions, when no entry is null. -/
structure FdTable where
  contexts : List ContextId := []
  allocated : ContextId := 0
  deriving DecidableEq, Repr

namespace FdTable

/-- `contextResize` (iomanager.cc:75-84): every null that `resize` puts in becomes a context. -/
def contextResize (t : FdTable) (size : Nat) : FdTable where
  contexts := t.contexts.take size ++ List.range' t.allocated (size - t.contexts.length)
  allocated := t.allocated + (size - t.contexts.length)

/-- `static_cast<size_t>(fd * 1.5)`; the product is exact in a double. -/
def newSize (fd : Fd) : Nat := fd.val * 3 / 2

inductive Op
  | addEvent | delEvent | cancelEvent | cancelAll
  deriving DecidableEq, Repr

/-- `outOfBounds` is `m_fdContexts[fd]` past the end, `noContext` the early `return false`. -/
inductive Found
  | context (c : ContextId)
  | outOfBounds
  | noContext
  deriving DecidableEq, Repr

def index (t : FdTable) (fd : Fd) : Found :=
  match t.contexts[fd.val]? with
  | some c => .context c
  | none => .outOfBounds

/-- The read-locked lookup of delEvent (iomanager.cc:140-145), cancelEvent
(173-178) and cancelAll (207-213). Only delEvent compares as `size_t`. -/
def lookup (t : FdTable) (op : Op) (fd : Fd) : Found :=
  match op with
  | .delEvent => if t.contexts.length ≤ fd.val then .noContext else t.index fd
  | _ => if castInt t.contexts.length ≤ fd.val then .noContext else t.index fd

end FdTable

/-- The threads in `growing` found the table too small and wait for the write lock. -/
structure FdTableState (T : Type) where
  table : FdTable := {}
  growing : T → Option Fd := fun _ => none

namespace FdTableState
variable {T : Type} [DecidableEq T]

inductive Label (T : Type)
  | check (t : T) (fd : Fd)
  | grow (t : T)
  | other (op : FdTable.Op) (fd : Fd)

structure Use where
  fd : Fd
  op : FdTable.Op
  found : FdTable.Found
  deriving DecidableEq, Repr

def region (s : FdTableState T) : Label T → Option (FdTableState T × Option Use)
  | .check t fd =>
    if (s.growing t).isSome then none
    else if castInt s.table.contexts.length > fd.val then
      some (s, some ⟨fd, .addEvent, s.table.index fd⟩)
    else some ({ s with growing := Function.update s.growing t (some fd) }, none)
  | .grow t =>
    match s.growing t with
    | none => none
    | some fd =>
      let table := s.table.contextResize (FdTable.newSize fd)
      some (⟨table, Function.update s.growing t none⟩, some ⟨fd, .addEvent, table.index fd⟩)
  | .other op fd =>
    if op = .addEvent then none else some (s, some ⟨fd, op, s.table.lookup op fd⟩)

/-- Starts as the constructor leaves it, after `contextResize(32)`. -/
def machine (T : Type) [DecidableEq T] : Lib.Machine (FdTableState T) (Label T) where
  init s := s = { table := FdTable.contextResize {} 32 }
  step s l := (s.region l).map Prod.fst

structure History where
  uses : List Use := []
  sizes : List Nat := []

def History.after (h : History) (s : FdTableState T) (l : Label T) (t : FdTableState T) : History where
  uses := ((s.region l).bind Prod.snd).toList ++ h.uses
  sizes := t.table.contexts.length :: h.sizes

def recorded (T : Type) [DecidableEq T] : Lib.Machine (FdTableState T × History) (Label T) :=
  (machine T).observe { sizes := [32] } History.after

end FdTableState
end HxSylar
