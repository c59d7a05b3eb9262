import HxSylar.Proofs.Codec

namespace HxSylar.ByteArray
open Lib (leBytes)

/-- A change of the byte order, or the write of an integer of several bytes (bytearray.cc:42-93). -/
inductive OrderCall
  | setIsLittleEndian (val : Bool)
  | writeFint16 (garbage : Garbage) (value : Int16)
  | writeFuint16 (garbage : Garbage) (value : UInt16)
  | writeFint32 (garbage : Garbage) (value : Int32)
  | writeFuint32 (garbage : Garbage) (value : UInt32)
  | writeFint64 (garbage : Garbage) (value : Int64)
  | writeFuint64 (garbage : Garbage) (value : UInt64)

namespace OrderCall

def run (host : Endian) : OrderCall → Op Unit
  | setIsLittleEndian val => ByteArray.setIsLittleEndian val
  | writeFint16 garbage value => ByteArray.writeFint16 host garbage value
  | writeFuint16 garbage value => ByteArray.writeFuint16 host garbage value
  | writeFint32 garbage value => ByteArray.writeFint32 host garbage value
  | writeFuint32 garbage value => ByteArray.writeFuint32 host garbage value
  | writeFint64 garbage value => ByteArray.writeFint64 host garbage value
  | writeFuint64 garbage value => ByteArray.writeFuint64 host garbage value

/-- The integer that a call writes: how many bytes it has, and their value as an unsigned
number. -/
def integer : OrderCall → Option (Nat × Nat)
  | setIsLittleEndian _ => none
  | writeFint16 _ value => some (2, value.toUInt16.toNat)
  | writeFuint16 _ value => some (2, value.toNat)
  | writeFint32 _ value => some (4, value.toUInt32.toNat)
  | writeFuint32 _ value => some (4, value.toNat)
  | writeFint64 _ value => some (8, value.toUInt64.toNat)
  | writeFuint64 _ value => some (8, value.toNat)

end OrderCall

/-- What the caller has asked for: the last argument of `setIsLittleEndian`, and the bytes of
the integers so far, each in the order asked for when it was written. -/
structure Wire where
  little : Bool := false
  bytes : List UInt8 := []

/-- An integer least significant byte first, or most significant byte first. -/
def ordered (little : Bool) (n v : Nat) : List UInt8 :=
  if little then leBytes n v else (leBytes n v).reverse

def Wire.after (h : Wire) (c : OrderCall) : Wire :=
  match c with
  | .setIsLittleEndian val => { h with little := val }
  | c =>
    match c.integer with
    | some (n, v) => { h with bytes := h.bytes ++ ordered h.little n v }
    | none => h

/-- A fresh array under such calls, with what was asked for beside it. -/
def orderMachine (host : Endian) (base : Nat) : Lib.Machine (ByteArray × Wire) OrderCall where
  init p := (∃ garbage, p.1 = create base garbage) ∧ p.2 = {}
  step p c :=
    match c.run host p.1 with
    | .ok _ t => some (t, p.2.after c)
    | .error _ _ => none

/-- The order is as asked for, and so is what the buffer holds. -/
def Configured (p : ByteArray × Wire) : Prop :=
  p.1.isLittleEndian = p.2.little ∧ p.1.contents = p.2.bytes

variable {base : Nat}

/-- An integer is appended most significant byte first on either host, since the array is
never in the other mode. -/
theorem integer_appends (hb : 1 ≤ base) (host : Endian) {c : OrderCall} {n v : Nat}
    (hc : c.integer = some (n, v)) : Appends base (c.run host) (leBytes n v).reverse := by
  cases c <;> cases hc
  all_goals exact appends_writeFixed hb host _ _ _

theorem after_integer {h : Wire} {c : OrderCall} {n v : Nat} (hc : c.integer = some (n, v)) :
    h.after c = { h with bytes := h.bytes ++ ordered h.little n v } := by
  cases c <;> cases hc
  all_goals rfl

theorem AtEnd.setIsLittleEndian {b : ByteArray} (h : AtEnd base b) (val : Bool) :
    ByteArray.setIsLittleEndian val b = .ok () b := by
  have hbig : { b with endian := .big } = b := by rw [← h.endian_eq]
  cases val with
  | false => rw [ByteArray.setIsLittleEndian, if_neg Bool.false_ne_true, hbig]
  | true => rw [ByteArray.setIsLittleEndian, if_pos rfl, hbig]

/-- What every call does to an array that has only been written to. -/
theorem order_run (hb : 1 ≤ base) (host : Endian) {b : ByteArray} (h : AtEnd base b) (c : OrderCall) :
    ∃ t, c.run host b = .ok () t ∧ AtEnd base t ∧
      t.contents = b.contents ++ (c.integer.elim [] (fun i => (leBytes i.1 i.2).reverse)) := by
  cases hc : c.integer with
  | none =>
    cases c <;> cases hc
    exact ⟨b, h.setIsLittleEndian _, h, (List.append_nil _).symm⟩
  | some i => exact integer_appends hb host hc b h

theorem order_step (hb : 1 ≤ base) (host : Endian) {p : ByteArray × Wire} (h : AtEnd base p.1)
    (c : OrderCall) :
    ∃ q, (orderMachine host base).step p c = some q ∧ AtEnd base q.1 ∧ q.2 = p.2.after c ∧
      q.1.contents = p.1.contents ++ (c.integer.elim [] (fun i => (leBytes i.1 i.2).reverse)) := by
  obtain ⟨t, hrun, hend, hbytes⟩ := order_run hb host h c
  refine ⟨(t, p.2.after c), ?_, hend, rfl, hbytes⟩
  simp only [orderMachine, hrun]

theorem AtEnd.isLittleEndian_eq {b : ByteArray} (h : AtEnd base b) : b.isLittleEndian = false := by
  rw [isLittleEndian, h.endian_eq]
  rfl

/-- One call keeps what was asked for exactly when it does not ask for little-endian. -/
theorem configured_step (hb : 1 ≤ base) {host : Endian} {p q : ByteArray × Wire} {c : OrderCall}
    (hend : AtEnd base p.1) (hp : Configured p) (hs : (orderMachine host base).step p c = some q) :
    AtEnd base q.1 ∧ (Configured q ↔ c ≠ .setIsLittleEndian true) := by
  obtain ⟨q', hs', hend', hwire, hbytes⟩ := order_step hb host hend c
  cases hs.symm.trans hs'
  refine ⟨hend', ?_⟩
  obtain ⟨hmode, hsame⟩ := hp
  rw [hend.isLittleEndian_eq] at hmode
  unfold Configured
  rw [hend'.isLittleEndian_eq, hwire, hbytes, hsame]
  cases hc : c.integer with
  | none =>
    cases c <;> cases hc
    rename_i val
    simp [Wire.after]
  | some i =>
    refine iff_of_true ?_ ?_
    · rw [after_integer hc]
      refine ⟨hmode, ?_⟩
      simp only [Option.elim_some, ordered, ← hmode, Bool.false_eq_true, if_false]
    · intro he
      rw [he] at hc
      cases hc

theorem order_exec (hb : 1 ≤ base) (host : Endian) {p : ByteArray × Wire} (h : AtEnd base p.1)
    (calls : List OrderCall) : ∃ q, (orderMachine host base).exec p calls = some q := by
  induction calls generalizing p with
  | nil => exact ⟨p, rfl⟩
  | cons c calls ih =>
    obtain ⟨q, hs, hend, -⟩ := order_step hb host h c
    obtain ⟨t, ht⟩ := ih hend
    exact ⟨t, by rw [Lib.Machine.exec, hs, Option.bind_some, ht]⟩

/-- Along every sequence of calls on a fresh array, on either host, the order and the bytes are
as asked for exactly when little-endian is never asked for. -/
theorem byte_order_iff (hb : 1 ≤ base) (host : Endian) (garbage : Garbage) (calls : List OrderCall) :
    (∃ q, (orderMachine host base).exec (create base garbage, {}) calls = some q) ∧
    ((orderMachine host base).Always Configured (create base garbage, {}) calls ↔
      ∀ c ∈ calls, c ≠ .setIsLittleEndian true) := by
  have hend : AtEnd base (create base garbage) := atEnd_create hb garbage
  obtain ⟨q, hq⟩ := order_exec hb host (p := (create base garbage, {})) hend calls
  refine ⟨⟨q, hq⟩, ?_⟩
  apply Lib.Machine.always_iff (I := fun p : ByteArray × Wire => AtEnd base p.1) ?_ hend ?_ hq
  · intro p c q hend hp hs
    exact configured_step hb hend hp hs
  · exact ⟨rfl, rfl⟩

/-- Two integers across a border of nodes, written in the order that was there from the start. -/
theorem byte_order_big :
    (orderMachine .little 3).Always Configured (create 3 (fun _ _ => 0), {})
      [.writeFint16 (fun _ _ => 0) (-2), .setIsLittleEndian false, .writeFuint32 (fun _ _ => 0) 5] := by
  apply (byte_order_iff (by decide) .little _ _).2.mpr
  intro c hc he
  simp [he] at hc

/-- Little-endian is asked for before a 1 is written: `isLittleEndian()` says no, and the bytes
come most significant first. -/
theorem byte_order_little :
    ((orderMachine .little 4).exec (create 4 (fun _ _ => 0), {})
        [.setIsLittleEndian true, .writeFuint16 (fun _ _ => 0) 1]).map
        (fun q => (q.1.isLittleEndian, q.1.contents, q.2.bytes)) = some (false, [0, 1], [1, 0]) ∧
      ¬(orderMachine .little 4).Always Configured (create 4 (fun _ _ => 0), {})
        [.setIsLittleEndian true, .writeFuint16 (fun _ _ => 0) 1] := by
  refine ⟨by decide, ?_⟩
  intro h
  have hset := (h.2 _ rfl).1.1
  cases hset

end HxSylar.ByteArray
