import Mathlib.Tactic.Ring

namespace HxSylar.Lib
variable {α : Type*}

/-- `l` with `data` written over it from `pos` on. -/
def splice (pos : Nat) (data l : List α) : List α :=
  l.take pos ++ data ++ l.drop (pos + data.length)

theorem splice_length {pos : Nat} {data l : List α} (h : pos + data.length ≤ l.length) :
    (splice pos data l).length = l.length := by
  simp only [splice, List.length_append, List.length_take, List.length_drop]
  omega

theorem splice_append_left {pos : Nat} {data l : List α} (r : List α)
    (h : pos + data.length ≤ l.length) : splice pos data (l ++ r) = splice pos data l ++ r := by
  have hp : pos ≤ l.length := by omega
  simp only [splice, List.take_append_of_le_length hp, List.drop_append_of_le_length h,
    List.append_assoc]

theorem splice_append_right {pos : Nat} {data l r : List α} (h : l.length ≤ pos) :
    splice pos data (l ++ r) = l ++ splice (pos - l.length) data r := by
  have ht : l.take pos = l := List.take_of_length_le h
  have hd : l.drop (pos + data.length) = [] := List.drop_eq_nil_of_le (by omega)
  have hs : pos + data.length - l.length = pos - l.length + data.length := by omega
  simp only [splice, List.take_append, List.drop_append, ht, hd, hs, List.nil_append,
    List.append_assoc]

/-- Writing across the border of two lists. -/
theorem splice_append_across {pos : Nat} {data l r : List α} (h : pos ≤ l.length)
    (hd : l.length - pos ≤ data.length) :
    splice pos data (l ++ r) =
      l.take pos ++ data.take (l.length - pos) ++ splice 0 (data.drop (l.length - pos)) r := by
  have hz : l.drop (pos + data.length) = [] := List.drop_eq_nil_of_le (by omega)
  have hs : pos + data.length - l.length = data.length - (l.length - pos) := by omega
  simp only [splice, List.take_append_of_le_length h, List.drop_append, hz, hs, List.take_zero,
    List.nil_append, Nat.zero_add, List.length_drop, List.append_assoc]
  rw [← List.append_assoc (data.take _), List.take_append_drop]

/-- Of the list written over, the first `n` elements matter for what comes first. -/
theorem take_splice {pos n : Nat} (data : List α) {l : List α} (hp : pos ≤ n) (hn : n ≤ l.length) :
    (splice pos data l).take (max n (pos + data.length)) = splice pos data (l.take n) := by
  have hpl : (l.take pos).length = pos := by
    rw [List.length_take]
    omega
  have h1 : (l.take pos ++ data).length = pos + data.length := by
    rw [List.length_append, hpl]
  have hmin : min pos n = pos := by omega
  have hsub : max n (pos + data.length) - (pos + data.length) = n - (pos + data.length) := by omega
  simp only [splice]
  rw [List.take_append, h1, hsub, List.take_of_length_le (by omega), List.take_take, hmin,
    List.drop_take]

/-- Writing on behind what was just written. -/
theorem splice_splice {pos : Nat} (data more : List α) {l : List α} (hp : pos ≤ l.length) :
    splice (pos + data.length) more (splice pos data l) = splice pos (data ++ more) l := by
  have hlen : (l.take pos ++ data).length = pos + data.length := by
    rw [List.length_append, List.length_take, Nat.min_eq_left hp]
  have hdrop : (l.take pos ++ data).drop (pos + data.length + more.length) = [] :=
    List.drop_eq_nil_of_le (by omega)
  simp only [splice]
  rw [List.take_append_of_le_length (Nat.le_of_eq hlen.symm),
    List.take_of_length_le (Nat.le_of_eq hlen), List.drop_append, hlen, hdrop,
    Nat.add_sub_cancel_left, List.drop_drop, List.length_append, List.append_assoc (l.take pos),
    List.nil_append, Nat.add_assoc]

theorem splice_nil (pos : Nat) (l : List α) : splice pos [] l = l := by
  rw [splice, List.append_nil, List.length_nil, Nat.add_zero, List.take_append_drop]

/-- Every chunk has length `k`. -/
def Uniform (k : Nat) (ns : List (List α)) : Prop := ∀ n ∈ ns, n.length = k

namespace Uniform
variable {k : Nat} {ns ms : List (List α)}

theorem cons {n : List α} (hn : n.length = k) (h : Uniform k ns) : Uniform k (n :: ns) := by
  intro m hm
  rcases List.mem_cons.mp hm with he | ht
  · subst m
    exact hn
  · exact h m ht

theorem tail {n : List α} (h : Uniform k (n :: ns)) : Uniform k ns :=
  fun m hm => h m (List.mem_cons_of_mem _ hm)

theorem head {n : List α} (h : Uniform k (n :: ns)) : n.length = k := h n List.mem_cons_self

theorem append (h : Uniform k ns) (h' : Uniform k ms) : Uniform k (ns ++ ms) := by
  intro m hm
  rcases List.mem_append.mp hm with hl | hr
  · exact h m hl
  · exact h' m hr

theorem take (h : Uniform k ns) (c : Nat) : Uniform k (ns.take c) :=
  fun m hm => h m (List.mem_of_mem_take hm)

theorem drop (h : Uniform k ns) (c : Nat) : Uniform k (ns.drop c) :=
  fun m hm => h m (List.mem_of_mem_drop hm)

theorem flatten_length (h : Uniform k ns) : ns.flatten.length = k * ns.length := by
  induction ns with
  | nil => simp
  | cons n ns ih =>
    rw [List.flatten_cons, List.length_append, h.head, ih h.tail, List.length_cons]
    ring

theorem flatten_drop (h : Uniform k ns) (c : Nat) : (ns.drop c).flatten = ns.flatten.drop (k * c) := by
  induction ns generalizing c with
  | nil => simp
  | cons n ns ih =>
    cases c with
    | zero => simp
    | succ c =>
      have hlen : n.length ≤ k * (c + 1) := by
        rw [h.head]
        exact Nat.le_mul_of_pos_right k c.succ_pos
      have hsub : k * (c + 1) - n.length = k * c := by
        rw [h.head, Nat.mul_succ, Nat.add_sub_cancel]
      rw [List.drop_succ_cons, ih h.tail, List.flatten_cons, List.drop_append,
        List.drop_eq_nil_of_le hlen, hsub, List.nil_append]

/-- Writing inside the chunks after the first `c` is writing into the whole. -/
theorem splice_drop {c off : Nat} (data : List α) (h : Uniform k ns) (hc : c ≤ ns.length) :
    (ns.take c).flatten ++ splice off data (ns.drop c).flatten =
      splice (k * c + off) data ns.flatten := by
  have hlen : (ns.take c).flatten.length = k * c := by
    rw [(h.take c).flatten_length, List.length_take, Nat.min_eq_left hc]
  conv => rhs; rw [← List.take_append_drop c ns, List.flatten_append]
  rw [splice_append_right (by omega), hlen, Nat.add_sub_cancel_left]

end Uniform
end HxSylar.Lib
