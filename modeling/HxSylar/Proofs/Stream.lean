import HxSylar.Stream
import HxSylar.Proofs.Scatter

namespace HxSylar
open Lib (splice)

namespace Stream
variable {σ : Type} {transfer : Nat → EStateM Failure σ Int} {n : Nat}

/-- The rule for the loop. `I done` holds after that many bytes; a call that fails then leaves
`J done`. -/
theorem fixSizeLoop_rule {I J : Nat → σ → Prop}
    (htransfer : ∀ done s, done < n → I done s → ∃ len t, transfer (n - done) s = .ok len t ∧
      (len ≤ 0 ∧ J done t ∨ 0 < len ∧ len ≤ (n - done : Nat) ∧ I (done + len.toNat) t))
    {done : Nat} {s : σ} (hdone : done ≤ n) (hs : I done s) :
    ∃ r t, fixSizeLoop transfer ((n - done : Nat) : Int) s = .ok r t ∧
      (r = none ∧ I n t ∨ ∃ done' len, done' < n ∧ r = some len ∧ len ≤ 0 ∧ J done' t) := by
  induction hk : n - done using Nat.strong_induction_on generalizing done s with
  | _ k ih =>
    subst hk
    rw [fixSizeLoop]
    by_cases hend : done = n
    · subst hend
      simp only [Nat.sub_self]
      exact ⟨none, s, rfl, .inl ⟨rfl, hs⟩⟩
    · have hlt : done < n := by omega
      have hpos : (0 : Int) < ((n - done : Nat) : Int) := by omega
      rw [dif_pos hpos, Int.toNat_natCast]
      obtain ⟨len, t, hcall, hstop | ⟨hlen, hle, ht⟩⟩ := htransfer done s hlt hs
      · simp only [hcall, dif_pos hstop.1]
        exact ⟨some len, t, rfl, .inr ⟨done, len, hlt, rfl, hstop.1, hstop.2⟩⟩
      · have hleft : ((n - done : Nat) : Int) - len = ((n - (done + len.toNat) : Nat) : Int) := by
          omega
        simp only [hcall, dif_neg (Int.not_le.mpr hlen), hleft]
        exact ih (n - (done + len.toNat)) (by omega) (by omega) ht rfl

/-- The function returns the size exactly when every byte is through. -/
theorem fixSize_rule {I J : Nat → σ → Prop} (hn : n < 2147483648)
    (htransfer : ∀ done s, done < n → I done s → ∃ len t, transfer (n - done) s = .ok len t ∧
      (len ≤ 0 ∧ J done t ∨ 0 < len ∧ len ≤ (n - done : Nat) ∧ I (done + len.toNat) t))
    {s : σ} (hs : I 0 s) :
    ∃ r t, fixSize transfer n s = .ok r t ∧
      (r = n ∧ I n t ∨ r ≤ 0 ∧ ∃ done, done < n ∧ J done t) := by
  have hint : intOfSize n = n := Int.bmod_eq_of_le_mul_two (by omega) (by omega)
  have hint64 : int64OfSize n = ((n - 0 : Nat) : Int) :=
    Int.bmod_eq_of_le_mul_two (by omega) (by omega)
  obtain ⟨r, t, hloop, hend⟩ := fixSizeLoop_rule htransfer (Nat.zero_le n) hs
  rw [fixSize, hint64, hint]
  refine ⟨r.getD n, t, Lib.Effect.map_ok hloop, ?_⟩
  rcases hend with ⟨rfl, ht⟩ | ⟨done, len, hlt, rfl, hle, ht⟩
  · exact .inl ⟨rfl, ht⟩
  · exact .inr ⟨hle, done, hlt, ht⟩

end Stream

/-- The socket stays connected and every call transfers something. -/
def Link.Steady (link : Link) : Prop :=
  ∀ call, link.connected call = true ∧ ∀ offered, 0 < offered → 0 < (link.result call offered).1

namespace SocketStream
variable {base : Nat}

/-- After `m` bytes of the array were handed over. -/
structure Sent (base : Nat) (src : ByteArray) (m : Nat) (s : Sending) : Prop where
  rep : ByteArray.Rep base s.ba
  contents : s.ba.contents = src.contents
  position : s.ba.position = src.position + m
  wire : s.wire = src.unread.take m

/-- After the first `m` bytes that came in were stored. -/
structure Stored (base : Nat) (dst : ByteArray) (incoming : List UInt8) (m : Nat) (s : Receiving) :
    Prop where
  rep : ByteArray.Rep base s.ba
  enough : m ≤ incoming.length
  contents : s.ba.contents = splice dst.position (incoming.take m) dst.contents
  position : s.ba.position = dst.position + m
  incoming : s.incoming = incoming.drop m

theorem advance_eq (hb : 1 ≤ base) {b : ByteArray} (h : ByteArray.Rep base b) {rt : Int}
    (hrt : 0 < rt) (hfit : b.position + rt.toNat ≤ b.capacity) :
    advance rt b = .ok () (b.moveTo (b.position + rt.toNat)) := by
  rw [advance, if_pos hrt, ByteArray.setPosition_eq hb h hfit]

theorem contents_moveTo {b : ByteArray} {pos : Nat} (h : pos ≤ b.size) :
    (b.moveTo pos).contents = b.contents := by
  rw [ByteArray.moveTo_of_le h]
  rfl

theorem write_ok {link : Link} {s : Sending} {length size : Nat} {iovs : List Iovec} {rt : Int}
    {b b' : ByteArray} (hconnected : link.connected s.calls = true)
    (hget : s.ba.getReadBuffers length = .ok (size, iovs) b)
    (hresult : (link.result s.calls (iovs.map Iovec.len).sum).1 = rt)
    (hadvance : advance rt b = .ok () b') :
    write link length s =
      .ok rt ⟨b', s.wire ++ (ByteArray.collect iovs b.nodes).take rt.toNat, s.calls + 1⟩ := by
  simp only [write, hconnected, hget, hresult, hadvance, Bool.not_true, Bool.false_eq_true, if_false]

theorem write_sends (hb : 1 ≤ base) {src : ByteArray} (hsrc : ByteArray.Rep base src) {n m : Nat}
    (hread : n ≤ src.getReadSize) (link : Link) {s : Sending} (hm : m < n)
    (h : Sent base src m s) :
    ∃ len t, write link (n - m) s = .ok len t ∧
      (len ≤ 0 ∧ (Sent base src m t ∧ ¬link.Steady) ∨
        0 < len ∧ len ≤ (n - m : Nat) ∧ Sent base src (m + len.toNat) t) := by
  by_cases hconnected : link.connected s.calls = true
  · have hsize : s.ba.size = src.size := by
      rw [← h.rep.contents_length, h.contents, hsrc.contents_length]
    rw [hsrc.getReadSize_eq] at hread
    have hpos := h.position
    have hunread : s.ba.unread = src.unread.drop m := by
      rw [ByteArray.unread, ByteArray.unread, h.contents, h.position, List.drop_drop]
    have hleft : 0 < n - m := by omega
    obtain ⟨iovs, hget, hsum, -, hcollect⟩ := ByteArray.getReadBuffers_spec hb h.rep hleft
      (by rw [h.rep.getReadSize_eq]; omega)
    obtain ⟨rt, hresult⟩ : ∃ rt, (link.result s.calls (iovs.map Iovec.len).sum).1 = rt := ⟨_, rfl⟩
    have hle : rt ≤ (n - m : Nat) := by
      rw [← hresult, ← hsum]
      exact (link.result s.calls (iovs.map Iovec.len).sum).2
    by_cases hrt : 0 < rt
    · have hfit : s.ba.position + rt.toNat ≤ s.ba.size := by omega
      have hcap := Nat.le_trans hfit h.rep.size_le
      refine ⟨rt, _, write_ok hconnected hget hresult
        (advance_eq hb h.rep hrt hcap), .inr ⟨hrt, hle, ?_⟩⟩
      refine ⟨h.rep.moveTo hb hcap, (contents_moveTo hfit).trans h.contents, ?_, ?_⟩
      · exact (congrArg (· + rt.toNat) hpos).trans (Nat.add_assoc ..)
      · rw [h.wire, hcollect, hunread, List.take_take, Nat.min_eq_left (by omega), List.take_add]
    · refine ⟨rt, _, write_ok hconnected hget hresult (if_neg hrt),
        .inl ⟨Int.not_lt.mp hrt, ⟨h.rep, h.contents, h.position, ?_⟩, ?_⟩⟩
      · rw [Int.toNat_of_nonpos (Int.not_lt.mp hrt), List.take_zero, List.append_nil, h.wire]
      · intro hsteady
        have hpositive := (hsteady s.calls).2 (iovs.map Iovec.len).sum (by omega)
        rw [hresult] at hpositive
        exact hrt hpositive
  · refine ⟨-1, { s with calls := s.calls + 1 }, ?_, .inl ⟨by omega, ?_, ?_⟩⟩
    · simp only [write, hconnected, Bool.not_false, if_true]
    · exact ⟨h.rep, h.contents, h.position, h.wire⟩
    · intro hsteady
      exact hconnected (hsteady s.calls).1

theorem read_ok {garbage : Garbage} {link : Link} {s : Receiving} {length size : Nat}
    {iovs : List Iovec} {result rt : Int} {data : List UInt8} {b b' : ByteArray}
    (hconnected : link.connected s.calls = true)
    (hget : s.ba.getWriteBuffers garbage length = .ok (size, iovs) b)
    (hresult : (link.result s.calls (iovs.map Iovec.len).sum).1 = result)
    (hdata : s.incoming.take result.toNat = data)
    (hrt : (if result ≤ 0 then result else data.length) = rt)
    (hadvance : advance rt { b with nodes := ByteArray.fill iovs data b.nodes } = .ok () b') :
    read garbage link length s = .ok rt ⟨b', s.incoming.drop data.length, s.calls + 1⟩ := by
  simp only [read, hconnected, hget, hresult, hdata, hrt, hadvance, Bool.not_true,
    Bool.false_eq_true, if_false]

theorem read_stores (hb : 1 ≤ base) {dst : ByteArray} (hdst : ByteArray.Rep base dst)
    {incoming : List UInt8} {n m : Nat} (garbage : Garbage) (link : Link) {s : Receiving}
    (hm : m < n) (h : Stored base dst incoming m s) :
    ∃ len t, read garbage link (n - m) s = .ok len t ∧
      (len ≤ 0 ∧ (Stored base dst incoming m t ∧ ¬(link.Steady ∧ m < incoming.length)) ∨
        0 < len ∧ len ≤ (n - m : Nat) ∧ Stored base dst incoming (m + len.toNat) t) := by
  by_cases hconnected : link.connected s.calls = true
  · have hleft : 0 < n - m := by omega
    obtain ⟨iovs, g, hget, hg, -, hsum, -, hfill⟩ := ByteArray.scatter_spec hb h.rep garbage hleft
    obtain ⟨result, hresult⟩ : ∃ rt, (link.result s.calls (iovs.map Iovec.len).sum).1 = rt :=
      ⟨_, rfl⟩
    have hle : result ≤ (n - m : Nat) := by
      rw [← hresult, ← hsum]
      exact (link.result s.calls (iovs.map Iovec.len).sum).2
    obtain ⟨data, hdata⟩ : ∃ data, s.incoming.take result.toNat = data := ⟨_, rfl⟩
    have hlength : data.length = min result.toNat (incoming.length - m) := by
      rw [← hdata, List.length_take, h.incoming, List.length_drop]
    obtain ⟨hrep, hcontents⟩ := hfill data (by omega)
    by_cases hempty : data = []
    · subst hempty
      have hrt : (if result ≤ 0 then result else (([] : List UInt8).length : Int)) ≤ 0 := by
        split
        · assumption
        · exact Int.le_refl 0
      refine ⟨_, _, read_ok hconnected hget hresult hdata rfl (if_neg (Int.not_lt.mpr hrt)),
        .inl ⟨hrt, ⟨hrep, h.enough, ?_, hg.position_eq.trans h.position, h.incoming⟩, ?_⟩⟩
      · rw [← h.contents, ← Lib.splice_nil s.ba.position s.ba.contents, ← hcontents]
        exact (contents_moveTo hrep.position_le).symm
      · rintro ⟨hsteady, hmore⟩
        have hpositive := (hsteady s.calls).2 (iovs.map Iovec.len).sum (by omega)
        rw [hresult] at hpositive
        rw [List.length_nil] at hlength
        omega
    · have hpos := List.length_pos_iff.mpr hempty
      have hrt : (if result ≤ 0 then result else (data.length : Int)) = data.length :=
        if_neg (by omega)
      have hcap : g.position + data.length ≤ g.capacity := by
        have henough := hg.enough
        rw [hg.position_eq]
        omega
      refine ⟨data.length, _, read_ok hconnected hget hresult hdata hrt
        (advance_eq hb hrep (by omega) hcap), .inr ⟨by omega, by omega, ?_⟩⟩
      have htaken : incoming.take m ++ data = incoming.take (m + data.length) := by
        rw [List.take_add, ← h.incoming, ← hdata, List.length_take, ← List.take_eq_take_min]
      have hbefore : (incoming.take m).length = m := by
        rw [List.length_take, Nat.min_eq_left h.enough]
      have hdst' : dst.position ≤ dst.contents.length := by
        rw [hdst.contents_length]
        exact hdst.position_le
      refine ⟨hrep.moveTo hb hcap, ?_, ?_, ?_, ?_⟩
      · rw [Int.toNat_natCast]
        omega
      · rw [Int.toNat_natCast, ← htaken, ← Lib.splice_splice _ _ hdst', hbefore, ← h.contents,
          ← h.position]
        exact hcontents
      · exact (congrArg (· + data.length) (hg.position_eq.trans h.position)).trans (Nat.add_assoc ..)
      · rw [h.incoming, List.drop_drop, Int.toNat_natCast]
  · refine ⟨-1, { s with calls := s.calls + 1 }, ?_, .inl ⟨by omega, ?_, ?_⟩⟩
    · simp only [read, hconnected, Bool.not_false, if_true]
    · exact ⟨h.rep, h.enough, h.contents, h.position, h.incoming⟩
    · intro hsteady
      exact hconnected (hsteady.1 s.calls).1

/-- `writeFixSize` hands the socket the next bytes of the array in order, and `readFixSize` stores
what comes in at the position of the array; each moves its array on by the bytes transferred, which
are all unless a call fails. -/
theorem fixSize_transfers {base base' : Nat} (hb : 1 ≤ base) (hb' : 1 ≤ base') {host host' : Endian}
    {src dst : ByteArray} (hsrc : (ByteArray.machine host base).Reachable src)
    (hdst : (ByteArray.machine host' base').Reachable dst) {n : Nat}
    (hlt : n < 2147483648) (hread : n ≤ src.getReadSize) (garbage : Garbage) (out inp : Link)
    (rest : List UInt8) :
    (∃ m r s, writeFixSize out n { ba := src } = .ok r s ∧ m ≤ n ∧ Sent base src m s ∧
      (r = n ∧ m = n ∨ r ≤ 0 ∧ m < n) ∧ (out.Steady → r = n)) ∧
    ∃ m r s, readFixSize garbage inp n { ba := dst, incoming := src.unread.take n ++ rest } = .ok r s ∧
      m ≤ n ∧ Stored base' dst (src.unread.take n ++ rest) m s ∧
      s.ba.contents = splice dst.position (src.unread.take m) dst.contents ∧
      (r = n ∧ m = n ∨ r ≤ 0 ∧ m < n) ∧ (inp.Steady → r = n) := by
  have hsrc' := ByteArray.rep_reachable hb hsrc
  have hdst' := ByteArray.rep_reachable hb' hdst
  refine ⟨?_, ?_⟩
  · have hstart : Sent base src 0 { ba := src } :=
      ⟨hsrc', rfl, rfl, List.take_zero.symm⟩
    obtain ⟨r, s, hrun, ⟨hr, hs⟩ | ⟨hr, m, hm, hs, hunsteady⟩⟩ := Stream.fixSize_rule hlt
      (fun m s hm h => write_sends hb hsrc' hread out hm h) hstart
    · exact ⟨n, r, s, hrun, Nat.le_refl n, hs, .inl ⟨hr, rfl⟩, fun _ => hr⟩
    · exact ⟨m, r, s, hrun, Nat.le_of_lt hm, hs, .inr ⟨hr, hm⟩, fun h => absurd h hunsteady⟩
  · have hstart : Stored base' dst (src.unread.take n ++ rest) 0
        { ba := dst, incoming := src.unread.take n ++ rest } :=
      ⟨hdst', Nat.zero_le _, (Lib.splice_nil _ _).symm, rfl, rfl⟩
    have hlength : (src.unread.take n).length = n := by
      rw [List.length_take, hsrc'.unread_length, Nat.min_eq_left hread]
    have hstored {m : Nat} {s : Receiving} (hs : Stored base' dst (src.unread.take n ++ rest) m s)
        (hm : m ≤ n) : s.ba.contents = splice dst.position (src.unread.take m) dst.contents := by
      rw [hs.contents, List.take_append_of_le_length (by omega), List.take_take, Nat.min_eq_left hm]
    obtain ⟨r, s, hrun, ⟨hr, hs⟩ | ⟨hr, m, hm, hs, hunsteady⟩⟩ := Stream.fixSize_rule hlt
      (fun m s hm h => read_stores hb' hdst' garbage inp hm h) hstart
    · exact ⟨n, r, s, hrun, Nat.le_refl n, hs, hstored hs (Nat.le_refl n), .inl ⟨hr, rfl⟩,
        fun _ => hr⟩
    · refine ⟨m, r, s, hrun, Nat.le_of_lt hm, hs, hstored hs (Nat.le_of_lt hm), .inr ⟨hr, hm⟩,
        fun h => absurd ⟨h, ?_⟩ hunsteady⟩
      rw [List.length_append, hlength]
      omega

/-- A socket that takes and gives three bytes at a time. -/
def threes : Link where
  connected _ := true
  result _ offered := ⟨min 3 offered, Int.min_le_right _ _⟩

theorem threes_steady : threes.Steady := by
  intro call
  refine ⟨rfl, fun offered hoffered => ?_⟩
  simp only [threes]
  omega

/-- Four bytes from the middle of nodes of two into nodes of three. -/
theorem fixSize_transfers_four :
    ∃ src dst : ByteArray, (ByteArray.machine .little 2).Reachable src ∧
      (ByteArray.machine .little 3).Reachable dst ∧
      (src.unread = [2, 3, 4, 5] ∧ src.getReadSize = 4) ∧
      (dst.contents = [9, 8] ∧ dst.position = 2) ∧
      (∃ s, writeFixSize threes 4 { ba := src } = .ok 4 s ∧ s.wire = [2, 3, 4, 5]) ∧
      ∃ s, readFixSize (fun _ _ => 0) threes 4 { ba := dst, incoming := [2, 3, 4, 5] } = .ok 4 s ∧
        s.ba.contents = [9, 8, 2, 3, 4, 5] := by
  obtain ⟨src, hsrc, hunread, hsize⟩ := (ByteArray.machine .little 2).exists_of_exec
    (s := ByteArray.create 2 (fun _ _ => 0))
    (fun b => b.unread = [2, 3, 4, 5] ∧ b.getReadSize = 4)
    [.write (fun _ _ => 0) [1, 2, 3, 4, 5], .setPosition 1] ⟨_, rfl⟩ (by decide)
  obtain ⟨dst, hdst, hcontents, hposition⟩ := (ByteArray.machine .little 3).exists_of_exec
    (s := ByteArray.create 3 (fun _ _ => 0)) (fun b => b.contents = [9, 8] ∧ b.position = 2)
    [.write (fun _ _ => 0) [9, 8]] ⟨_, rfl⟩ (by decide)
  obtain ⟨⟨m, r, s, hwrite, -, hsent, hend, hall⟩, m', r', s', hread, -, -, hstored, hend', hall'⟩ :=
    fixSize_transfers (by decide) (by decide) hsrc hdst (n := 4) (by decide)
      (Nat.le_of_eq hsize.symm) (fun _ _ => 0) threes threes []
  cases hall threes_steady
  cases hall' threes_steady
  obtain rfl : m = 4 := by omega
  obtain rfl : m' = 4 := by omega
  rw [hunread] at hread hstored
  rw [hcontents, hposition] at hstored
  refine ⟨src, dst, hsrc, hdst, ⟨hunread, hsize⟩, ⟨hcontents, hposition⟩, ⟨s, hwrite, ?_⟩, s', hread,
    hstored⟩
  rw [hsent.wire, hunread]
  rfl

end SocketStream
end HxSylar
