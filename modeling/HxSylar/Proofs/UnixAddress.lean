import HxSylar.Address
import Mathlib.Algebra.Ring.Nat

namespace HxSylar.UnixAddress
open Lib
variable (path : Text)

/-- An abstract name starts with a null byte. -/
def Abstract : Prop := path[0]? = some 0

instance : Decidable (Abstract path) := inferInstanceAs (Decidable (_ = _))

/-- The place that a path takes: one that is not abstract has a null byte behind it. -/
def place : Nat := path.length + if Abstract path then 0 else 1

/-- A path as `getPath` shows it. -/
def shown : Text := if Abstract path then text "\\0" ++ path.tail else path

/-- What is expected of the constructor: a path that fits is stored, counted and shown again, and a
longer one is refused. -/
def CarriesPath : Prop :=
  (place path ≤ sunPathSize → ∃ a, new path = .ok a ∧
    a.mAddr.sunPath.toList.take path.length = path ∧
    a.getAddrLen.toNat = sunPathOffset + place path ∧
    a.getPath = some (shown path)) ∧
  (sunPathSize < place path → ∃ e, new path = .error e)

variable {path}

/-- The constructor counts the place without the offset, in 32 bits, and stores nothing. -/
theorem new_eq : new path =
    if sunPathSize < place path % 2 ^ 32 then .error ⟨text "path too long "⟩
    else .ok ⟨{ sunFamily := afUnix }, UInt32.ofNat (place path)⟩ := by
  have hlength : (if path[0]? = some 0 then UInt32.ofNat (path.length + 1) - 1
      else UInt32.ofNat (path.length + 1)) = UInt32.ofNat (place path) := by
    by_cases habstract : Abstract path
    · have hplace : place path = path.length := by rw [place, if_pos habstract, Nat.add_zero]
      have hfirst : path[0]? = some 0 := habstract
      rw [if_pos hfirst, hplace, UInt32.ofNat_add]
      exact UInt32.add_sub_cancel (UInt32.ofNat path.length) 1
    · have hplace : place path = path.length + 1 := by rw [place, if_neg habstract]
      have hfirst : ¬path[0]? = some 0 := habstract
      rw [if_neg hfirst, hplace]
  unfold new
  dsimp only
  rw [hlength, UInt32.toNat_ofNat']

/-- Only a path that is refused does as expected: it is longer than what fits, and what is left of
its place in 32 bits still is. -/
theorem carriesPath_iff (path : Text) :
    CarriesPath path ↔ sunPathSize < place path % 2 ^ 32 := by
  have hmod : place path % 2 ^ 32 ≤ place path := Nat.mod_le _ _
  constructor
  · intro h
    by_cases hfits : place path ≤ sunPathSize
    · obtain ⟨a, ha, _, hlen, _⟩ := h.1 hfits
      have hlt : place path < 2 ^ 32 := Nat.lt_of_le_of_lt hfits (by decide)
      rw [new_eq, Nat.mod_eq_of_lt hlt, if_neg (Nat.not_lt.mpr hfits)] at ha
      injection ha with ha
      rw [← ha, getAddrLen, UInt32.toNat_ofNat', Nat.mod_eq_of_lt hlt] at hlen
      simp only [sunPathOffset] at hlen
      omega
    · obtain ⟨e, he⟩ := h.2 (Nat.not_le.mp hfits)
      rw [new_eq] at he
      by_cases hstored : sunPathSize < place path % 2 ^ 32
      · exact hstored
      · rw [if_neg hstored] at he
        cases he
  · intro h
    constructor
    · intro hfits
      omega
    · intro _
      exact ⟨_, by rw [new_eq, if_pos h]⟩

/-- The address of a path that fits is empty and two bytes short. -/
theorem new_drops_path : ¬CarriesPath (text "/tmp/x.sock") := by
  intro h
  obtain ⟨a, ha, hstored, _⟩ := h.1 (by decide)
  have hnew : new (text "/tmp/x.sock") = .ok ⟨{ sunFamily := afUnix }, 12⟩ := rfl
  rw [hnew] at ha
  injection ha with ha
  rw [← ha] at hstored
  exact absurd hstored (by decide)

end HxSylar.UnixAddress
