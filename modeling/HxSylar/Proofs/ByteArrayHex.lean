import HxSylar.Lib.Pieces
import HxSylar.Proofs.PositionalRead

namespace HxSylar.ByteArray
open Lib

/-- The documented form of the dump, from index `i` on: two digits and a blank for each byte, and a
new line before every byte whose index is a positive multiple of 32. -/
def hexDumpFrom (i : Nat) (bytes : List UInt8) : Lib.Text :=
  (bytes.zipIdx i).flatMap fun (b, i) =>
    (if 0 < i ∧ i % 32 = 0 then [byte '\n'] else []) ++ Lib.Text.twoDigits b ++ [byte ' ']

def hexDump (bytes : List UInt8) : Lib.Text := hexDumpFrom 0 bytes

section Hex
variable {base : Nat} {host : Endian} {b : ByteArray}

theorem hexDumpFrom_cons (i : Nat) (c : UInt8) (cs : List UInt8) :
    hexDumpFrom i (c :: cs) =
      (if 0 < i ∧ i % 32 = 0 then [byte '\n'] else []) ++
        (Lib.Text.twoDigits c ++ byte ' ' :: hexDumpFrom (i + 1) cs) := by
  simp [hexDumpFrom, List.zipIdx_cons]

theorem hexLoop_cons (i : Nat) (c : UInt8) (cs : List UInt8) :
    hexLoop i (c :: cs) =
      (if 0 < i ∧ i % 32 = 0 then [byte '\n'] else []) ++
        ((Lib.Text.hexInt (signedChar c)).setw 2 (byte '0') ++ byte ' ' :: hexLoop (i + 1) cs) := by
  simp [hexLoop]

/-- The loop writes the documented form exactly when no byte is negative as a `char`. -/
theorem hexLoop_eq_iff (bytes : List UInt8) (i : Nat) :
    hexLoop i bytes = hexDumpFrom i bytes ↔ ∀ c ∈ bytes, c < 128 := by
  induction bytes generalizing i with
  | nil => simp [hexLoop, hexDumpFrom]
  | cons c cs ih =>
    obtain ⟨hdigits, -, hblank⟩ := hexInt_char c
    rw [hexLoop_cons, hexDumpFrom_cons, List.append_cancel_left_eq,
      Pieces.append_sep_inj hblank (Lib.Text.twoDigits_blank c), List.forall_mem_cons, hdigits, ih]

/-- Whatever a byte is written as, the text tells which bytes it was made of. -/
theorem hexLoop_injective (i : Nat) {bytes bytes' : List UInt8}
    (h : hexLoop i bytes = hexLoop i bytes') : bytes = bytes' := by
  induction bytes generalizing i bytes' with
  | nil =>
    cases bytes' with
    | nil => rfl
    | cons c cs => simp [hexLoop] at h
  | cons c cs ih =>
    cases bytes' with
    | nil => simp [hexLoop] at h
    | cons c' cs' =>
      obtain ⟨-, hvalue, hblank⟩ := hexInt_char c
      obtain ⟨-, hvalue', hblank'⟩ := hexInt_char c'
      rw [hexLoop_cons, hexLoop_cons, List.append_cancel_left_eq,
        Pieces.append_sep_inj hblank hblank'] at h
      obtain ⟨hdigits, hrest⟩ := h
      have hc : c = c' := by rw [← hvalue, hdigits, hvalue']
      rw [hc, ih (i + 1) hrest]

theorem toHexString_eq (hb : 1 ≤ base) (h : Rep base b) :
    toHexString b = .ok (hexLoop 0 b.unread) b := by
  rw [toHexString, toString_eq hb h]

/-- The dump has the documented form, and no other state with another `toString()` has the same. -/
def HexFaithful (b : ByteArray) : Prop :=
  (∃ str, toString b = .ok str b ∧ toHexString b = .ok (hexDump str) b) ∧
    ∀ base' host' b', 1 ≤ base' → (machine host' base').Reachable b' →
      ∀ dump, toHexString b = .ok dump b → toHexString b' = .ok dump b' →
        ∃ str, toString b = .ok str b ∧ toString b' = .ok str b'

/-- A byte from 128 on is written with eight digits. -/
theorem toHexString_faithful_iff (hb : 1 ≤ base) (hr : (machine host base).Reachable b) :
    HexFaithful b ↔ ∀ c ∈ b.unread, c < 128 := by
  have h := rep_reachable hb hr
  rw [← hexLoop_eq_iff b.unread 0]
  constructor
  · intro hf
    obtain ⟨str, hstr, hdump⟩ := hf.1
    rw [toString_eq hb h] at hstr
    cases hstr
    rw [toHexString_eq hb h] at hdump
    injection hdump
  · intro heq
    refine ⟨⟨b.unread, toString_eq hb h, ?_⟩, ?_⟩
    · rw [toHexString_eq hb h, heq]
      rfl
    · intro base' host' b' hb' hr' dump hdump hdump'
      have h' := rep_reachable hb' hr'
      rw [toHexString_eq hb h] at hdump
      rw [toHexString_eq hb' h'] at hdump'
      injection hdump with hdump
      injection hdump' with hdump'
      have hsame := hexLoop_injective 0 (hdump.trans hdump'.symm)
      exact ⟨b.unread, toString_eq hb h, by rw [hsame]; exact toString_eq hb' h'⟩

/-- Forty bytes of text, in nodes of sixteen. -/
theorem toHexString_faithful_text :
    ∃ b, (machine .little 16).Reachable b ∧ b.unread = List.replicate 40 97 ∧ HexFaithful b := by
  obtain ⟨b, hr, hunread⟩ := Lib.Machine.exists_of_exec (machine .little 16)
    (s := create 16 (fun _ _ => 0)) (fun b => b.unread = List.replicate 40 97)
    [.write (fun _ _ => 0) (List.replicate 40 97), .setPosition 0] ⟨_, rfl⟩ (by decide)
  refine ⟨b, hr, hunread, (toHexString_faithful_iff (by decide) hr).mpr ?_⟩
  intro c hc
  rw [hunread] at hc
  rw [List.eq_of_mem_replicate hc]
  decide

/-- The byte 0x80 is written as `ffffff80`. -/
theorem toHexString_negative :
    ∃ b, (machine .little 16).Reachable b ∧ b.unread = [0x80] ∧
      toHexString b = .ok (text "ffffff80 ") b ∧ ¬HexFaithful b := by
  obtain ⟨b, hr, hunread⟩ := Lib.Machine.exists_of_exec (machine .little 16)
    (s := create 16 (fun _ _ => 0)) (fun b => b.unread = [0x80])
    [.write (fun _ _ => 0) [0x80], .setPosition 0] ⟨_, rfl⟩ (by decide)
  have h := rep_reachable (by decide) hr
  have hdump : toHexString b = .ok (text "ffffff80 ") b := by
    have htext : hexLoop 0 [0x80] = text "ffffff80 " := by decide
    rw [toHexString_eq (by decide) h, hunread, htext]
  refine ⟨b, hr, hunread, hdump, ?_⟩
  intro hf
  obtain ⟨str, hstr, hform⟩ := hf.1
  rw [toString_eq (by decide) h, hunread] at hstr
  cases hstr
  rw [hdump] at hform
  injection hform with hform
  revert hform
  decide

end Hex
end HxSylar.ByteArray
