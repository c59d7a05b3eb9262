import HxSylar.ByteArrayFile
import HxSylar.Proofs.Codec
import HxSylar.Proofs.PositionalRead

namespace HxSylar.ByteArray
open Lib (splice Uniform)

section Dump
variable {base : Nat} {ns : List Node}

theorem nodeOffset_nat (base pos : Nat) :
    nodeOffset base pos = ((pos % base : Nat) : Int).bmod (2 ^ 32) := by
  unfold nodeOffset
  rw [if_neg (by omega)]
  rfl

theorem nodeOffset_small {pos : Nat} (h : pos % base < 2 ^ 31) :
    nodeOffset base pos = (pos % base : Nat) := by
  rw [nodeOffset_nat]
  apply Int.bmod_eq_of_le <;> omega

theorem nodeOffset_lt (base : Nat) (pos : Int) : nodeOffset base pos < 2 ^ 31 :=
  Int.bmod_lt (by decide)

theorem dump_done (base node : Nat) (pos : Int) (ns : List Node) :
    dump base node pos 0 ns = some [] := by
  cases ns <;> rfl

/-- The writes go by the number of nodes, not by what they hold. -/
theorem dump_congr {ns ms : List Node} (h : ns.length = ms.length) (base node : Nat)
    (pos readSize : Int) : dump base node pos readSize ns = dump base node pos readSize ms := by
  induction ns generalizing ms node pos readSize with
  | nil =>
    obtain rfl := List.eq_nil_of_length_eq_zero h.symm
    rfl
  | cons n ns ih =>
    cases ms with
    | nil => cases h
    | cons m ms =>
      simp only [dump]
      split
      · rw [ih (Nat.succ.inj h)]
      · rfl

/-- A write of a positive length that stays inside one node of the chain. -/
def FileWrite.Inside (base count : Nat) (w : FileWrite) : Prop :=
  0 < w.len ∧ 0 ≤ w.diff ∧ w.node < count ∧ w.diff + w.len ≤ base

/-- One turn of the loop, at an offset that an `int` holds. -/
theorem dump_cons (n : Node) (ns : List Node) {i off r : Nat} (hoff : off < base)
    (hint : off < 2 ^ 31) (hr : 0 < r) :
    dump base i (base * i + off : Nat) r (n :: ns) =
      (dump base (i + 1) ((base * i : Nat) + min (base : Int) r) (r - (min (base : Int) r - off)) ns).map
        (⟨i, off, min (base : Int) r - off⟩ :: ·) := by
  have hmod : (base * i + off) % base = off := by
    rw [Nat.mul_add_mod, Nat.mod_eq_of_lt hoff]
  have hdiff : nodeOffset base (base * i + off : Nat) = (off : Int) := by
    rw [nodeOffset_small (by omega), hmod]
  have hmin : (if (r : Int) > base then (base : Int) else r) = min (base : Int) r := by
    split <;> omega
  have hpos : ((base * i + off : Nat) : Int) + (min (base : Int) r - off) =
      (base * i : Nat) + min (base : Int) r := by
    omega
  rw [dump, if_pos (by omega)]
  simp only [hdiff, hmin, hpos]

theorem bytes_middle (pre : List Node) (n : Node) (ns : List Node) (diff len : Nat) :
    FileWrite.bytes ⟨pre.length, diff, len⟩ (pre ++ n :: ns) = (n.drop diff).take len := by
  have hnode : (pre ++ n :: ns).getD pre.length [] = n := by
    rw [List.getD_eq_getElem?_getD, List.getElem?_append_right (Nat.le_refl _), Nat.sub_self]
    rfl
  rw [FileWrite.bytes, hnode, Int.toNat_natCast, Int.toNat_natCast]

/-- A write of the rest of a node, with the writes behind it. -/
theorem fileOf_rest {pre : List Node} {n : Node} (hn : n.length = base) (off : Nat)
    (ws : List FileWrite) (ns : List Node) :
    fileOf (⟨pre.length, off, (base - off : Nat)⟩ :: ws) (pre ++ n :: ns) =
      n.drop off ++ fileOf ws (pre ++ n :: ns) := by
  have hlen : (n.drop off).length = base - off := by rw [List.length_drop, hn]
  rw [fileOf, List.flatMap_cons, ← fileOf, bytes_middle, List.take_of_length_le (Nat.le_of_eq hlen)]

/-- From an offset in a node on, the loop writes what lies there, if the offset is zero or as
much as a node is left: it takes the offset off the smaller of the two. -/
theorem dump_eq (hb : 1 ≤ base) (hu : Uniform base ns) {i off r : Nat} (hoff : off < base)
    (hint : off < 2 ^ 31) (hcond : off = 0 ∨ base ≤ r) (hfit : off + r ≤ base * ns.length)
    {pre : List Node} (hi : pre.length = i) :
    ∃ ws, dump base i (base * i + off : Nat) r ns = some ws ∧
      fileOf ws (pre ++ ns) = (ns.flatten.drop off).take r ∧
      ∀ w ∈ ws, w.Inside base (i + ns.length) := by
  induction ns generalizing i off r pre with
  | nil =>
    simp only [List.length_nil, Nat.mul_zero] at hfit
    obtain rfl : r = 0 := by omega
    exact ⟨[], dump_done _ _ _ _, rfl, by simp⟩
  | cons n ns ih =>
    by_cases hr : r = 0
    · subst hr
      exact ⟨[], dump_done _ _ _ _, rfl, by simp⟩
    have hn := hu.head
    subst hi
    rw [dump_cons n ns hoff hint (by omega), List.flatten_cons]
    by_cases hfull : base ≤ r
    · -- the rest of this node; the next turn starts at offset zero
      have hmin : min (base : Int) r = base := by omega
      have hpos : ((base * pre.length : Nat) : Int) + base = (base * (pre.length + 1) + 0 : Nat) := by
        rw [Nat.mul_succ]
        omega
      have hleft : (r : Int) - (base - off) = (r - (base - off) : Nat) := by omega
      have hlen : (base : Int) - off = (base - off : Nat) := by omega
      rw [hmin, hpos, hleft, hlen]
      rw [List.length_cons, Nat.mul_succ] at hfit
      have hpre : (pre ++ [n]).length = pre.length + 1 := by
        rw [List.length_append, List.length_singleton]
      have hrest : 0 + (r - (base - off)) ≤ base * ns.length := by omega
      obtain ⟨ws, hws, hfile, hin⟩ := ih hu.tail hb (by decide) (.inl rfl) hrest hpre
      refine ⟨_, by rw [hws, Option.map_some], ?_, ?_⟩
      · have hdrop : (n.drop off).length = base - off := by rw [List.length_drop, hn]
        rw [List.append_assoc, List.singleton_append, List.drop_zero] at hfile
        rw [fileOf_rest hn, hfile, List.drop_append_of_le_length (by omega), List.take_append, hdrop,
          List.take_of_length_le (l := n.drop off) (by omega)]
      · intro w hw
        rw [List.length_cons]
        rcases List.mem_cons.mp hw with he | ht
        · subst he
          refine ⟨?_, ?_, ?_, ?_⟩ <;> simp only <;> omega
        · obtain ⟨h1, h2, h3, h4⟩ := hin w ht
          exact ⟨h1, h2, by omega, h4⟩
    · -- less than a node, from its start
      obtain rfl : off = 0 := by omega
      have hmin : min (base : Int) r = r := by omega
      have hzero : (r : Int) - (r - (0 : Nat)) = 0 := by omega
      have hlen : (r : Int) - (0 : Nat) = (r : Nat) := by omega
      rw [hmin, hzero, dump_done, hlen]
      refine ⟨_, rfl, ?_, ?_⟩
      · rw [fileOf, List.flatMap_singleton, bytes_middle, List.drop_zero, List.drop_zero,
          List.take_append_of_le_length (by omega)]
      · intro w hw
        rw [List.mem_singleton] at hw
        subst hw
        rw [List.length_cons]
        refine ⟨?_, ?_, ?_, ?_⟩ <;> simp only <;> omega

end Dump

section Load
variable {base : Nat}

theorem fileBlocks_flatten (base : Nat) (file : List UInt8) :
    (fileBlocks base file).flatten = file := by
  induction file using fileBlocks.induct base with
  | case1 file h ih => rw [fileBlocks, if_pos h, List.flatten_cons, ih, List.take_append_drop]
  | case2 file h => rw [fileBlocks, if_neg h, List.flatten_singleton]

theorem appends_writeBlocks (hb : 1 ≤ base) (garbage : Garbage) (blocks : List (List UInt8)) :
    Appends base (writeBlocks garbage blocks) blocks.flatten := by
  induction blocks with
  | nil => exact appends_pure
  | cons block blocks ih => exact (appends_write hb garbage block).seq ih

/-- A file read into a fresh array is there again from position 0 on. -/
theorem readFromFile_toString (hb : 1 ≤ base) (garbage fill : Garbage) (file : List UInt8) :
    ∃ t, (readFromFile garbage file >>= fun _ => setPosition 0) (create base fill) = .ok () t ∧
      toString t = .ok file t := by
  obtain ⟨b, hread, hend, hcontents⟩ := appends_writeBlocks hb garbage (fileBlocks base file)
    (create base fill) (atEnd_create hb fill)
  have hfile : readFromFile garbage file (create base fill) = .ok () b := hread
  refine ⟨b.moveTo 0, ?_, ?_⟩
  · rw [Lib.Effect.bind_ok hfile]
    exact setPosition_eq hb hend.rep (Nat.zero_le _)
  · have hbytes : (b.moveTo 0).unread = file := by
      have hnil : (create base fill).contents = [] := rfl
      rw [hnil, List.nil_append, fileBlocks_flatten] at hcontents
      rw [moveTo_of_le (Nat.zero_le _)]
      exact hcontents
    rw [toString_eq hb (hend.rep.moveTo hb (Nat.zero_le _)), hbytes]

end Load

section WriteToFile
variable {base : Nat} {b : ByteArray}

/-- `writeToFile` writes the readable bytes in order, each time a positive number of them from
inside one node, and a fresh array of any node size reads them back. -/
def DumpsReadable (b : ByteArray) : Prop :=
  ∃ ws str, writeToFile b = .ok ws b ∧ toString b = .ok str b ∧ fileOf ws b.nodes = str ∧
    (∀ w ∈ ws, w.Inside b.baseSize b.nodes.length) ∧
    ∀ base garbage fill, 1 ≤ base →
      ∃ t, (readFromFile garbage (fileOf ws b.nodes) >>= fun _ => setPosition 0) (create base fill) =
        .ok () t ∧ toString t = .ok str t

/-- Nothing is left to read; or the position is at the start of a node, or as much as a node is
left and the offset in the node fits an `int`. -/
def Dumpable (b : ByteArray) : Prop :=
  b.getReadSize = 0 ∨ b.position % b.baseSize < 2 ^ 31 ∧
    (b.position % b.baseSize = 0 ∨ b.baseSize ≤ b.getReadSize)

theorem writeToFile_empty (h : b.getReadSize = 0) : writeToFile b = .ok [] b := by
  unfold writeToFile
  rw [h]
  have hdone : ∀ ns, dump b.baseSize (b.cur.getD 0) b.position ((0 : Nat) : Int) ns = some [] :=
    dump_done _ _ _
  rw [hdone]

/-- The writes of `writeToFile` from inside the chain. -/
theorem writeToFile_iff (hb : 1 ≤ base) (h : Rep base b) (hlt : b.position < b.capacity)
    (ws : List FileWrite) :
    writeToFile b = .ok ws b ↔
      dump base (b.position / base) (base * (b.position / base) + b.position % base : Nat)
        b.getReadSize (b.nodes.drop (b.position / base)) = some ws := by
  obtain ⟨hcur, -, hdiv, -⟩ := h.cur_inside hb hlt
  unfold writeToFile
  rw [hcur, hdiv, h.baseSize_eq, Option.getD_some, Option.elim_some]
  cases dump base (b.position / base) b.position b.getReadSize (b.nodes.drop (b.position / base)) with
  | none => simp
  | some ws' => simp

theorem Dumpable.dumps (hb : 1 ≤ base) (h : Rep base b) (hd : Dumpable b) : DumpsReadable b := by
  have hunread := toString_eq hb h
  have hread := h.getReadSize_eq
  have hsize := h.size_le
  have hpos := h.position_le
  by_cases hz : b.getReadSize = 0
  · have hnil : b.unread = [] := by
      apply List.eq_nil_of_length_eq_zero
      rw [h.unread_length, hz]
    refine ⟨[], b.unread, writeToFile_empty hz, hunread, hnil.symm, by simp, ?_⟩
    intro base garbage fill hb
    rw [hnil]
    exact readFromFile_toString hb garbage fill []
  · obtain ⟨hint, hcond⟩ := hd.resolve_left hz
    rw [h.baseSize_eq] at hint hcond
    have hlt : b.position < b.capacity := by omega
    obtain ⟨-, hin, hdiv, hmod⟩ := h.cur_inside hb hlt
    have hu : Uniform base b.nodes := h.node_size
    have hpre : (b.nodes.take (b.position / base)).length = b.position / base := by
      rw [List.length_take, Nat.min_eq_left (Nat.le_of_lt hin)]
    obtain ⟨ws, hws, hfile, hinside⟩ := dump_eq hb (hu.drop (b.position / base)) hmod hint hcond
      (h.room hb hlt (by omega)) hpre
    have hbytes : fileOf ws b.nodes = b.unread := by
      rw [List.take_append_drop, hu.flatten_drop, List.drop_drop, hdiv] at hfile
      rw [hfile, ← flat, ← contents_window b (by omega), unread]
      apply List.take_of_length_le
      rw [← h.unread_length]
      exact Nat.le_refl _
    refine ⟨ws, b.unread, ?_, hunread, hbytes, ?_, ?_⟩
    · exact (writeToFile_iff hb h hlt ws).mpr hws
    · intro w hw
      obtain ⟨h1, h2, h3, h4⟩ := hinside w hw
      rw [List.length_drop] at h3
      rw [h.baseSize_eq]
      exact ⟨h1, h2, by omega, h4⟩
    · intro base garbage fill hb
      rw [hbytes]
      exact readFromFile_toString hb garbage fill b.unread

theorem dump_uncons {node : Nat} {pos r : Int} {ns : List Node} {ws : List FileWrite} (hr : 0 < r)
    (hws : dump base node pos r ns = some ws) :
    ∃ len ws', ws = ⟨node, nodeOffset base pos, len⟩ :: ws' := by
  cases ns with
  | nil =>
    rw [dump, if_pos hr] at hws
    cases hws
  | cons n ns =>
    rw [dump, if_pos hr] at hws
    obtain ⟨ws', -, he⟩ := Option.map_eq_some_iff.mp hws
    exact ⟨_, ws', he.symm⟩

theorem bytes_length {w : FileWrite} {ns : List Node} (hu : Uniform base ns)
    (hw : w.Inside base ns.length) : (w.bytes ns).length = w.len.toNat := by
  obtain ⟨hlen, hdiff, hnode, hend⟩ := hw
  have hmem : (ns.getD w.node []).length = base := by
    rw [List.getD_eq_getElem?_getD, List.getElem?_eq_getElem hnode, Option.getD_some]
    exact hu _ (List.getElem_mem hnode)
  rw [FileWrite.bytes, List.length_take, List.length_drop, hmem]
  omega

/-- The first byte of a write, as a byte of the whole chain. -/
theorem bytes_head {w : FileWrite} {ns : List Node} (hu : Uniform base ns)
    (hw : w.Inside base ns.length) :
    (w.bytes ns)[0]? = ns.flatten[base * w.node + w.diff.toNat]? := by
  obtain ⟨hlen, hdiff, hnode, hend⟩ := hw
  have hnth : ns.drop w.node = ns.getD w.node [] :: ns.drop (w.node + 1) := by
    rw [List.getD_eq_getElem?_getD, List.getElem?_eq_getElem hnode, Option.getD_some]
    exact List.drop_eq_getElem_cons hnode
  have hsize : (ns.getD w.node []).length = base := (hnth ▸ hu.drop w.node).head
  rw [FileWrite.bytes, head_window _ _ (by omega), ← List.getElem?_drop, ← hu.flatten_drop, hnth,
    List.flatten_cons, List.getElem?_append_left (by omega)]

/-- How much the writes come to does not depend on what the nodes hold. -/
theorem fileOf_length {ws : List FileWrite} {ns : List Node} (hu : Uniform base ns)
    (hin : ∀ w ∈ ws, w.Inside base ns.length) :
    (fileOf ws ns).length = (ws.map (fun w => w.len.toNat)).sum := by
  induction ws with
  | nil => rfl
  | cons w ws ih =>
    have htail := ih (fun v hv => hin v (List.mem_cons_of_mem w hv))
    rw [fileOf, List.flatMap_cons, ← fileOf, List.length_append, htail,
      bytes_length hu (hin w List.mem_cons_self), List.map_cons, List.sum_cons]

theorem writeToFile_congr {b' : ByteArray} {ws : List FileWrite} (hb : 1 ≤ base) (h : Rep base b)
    (h' : Rep base b') (hshape : SameShape b b') (hlt : b.position < b.capacity)
    (hws : writeToFile b = .ok ws b) : writeToFile b' = .ok ws b' := by
  have hlt' : b'.position < b'.capacity := by
    rw [hshape.position_eq, hshape.capacity_eq]
    exact hlt
  have hcount : b.nodes.length = b'.nodes.length := by
    apply Nat.eq_of_mul_eq_mul_left hb
    rw [← h.capacity_eq, ← h'.capacity_eq, hshape.capacity_eq]
  have hread : b'.getReadSize = b.getReadSize := by
    unfold getReadSize
    rw [hshape.position_eq, hshape.size_eq]
  rw [writeToFile_iff hb h hlt] at hws
  rw [writeToFile_iff hb h' hlt', hshape.position_eq, hread]
  rw [← hws]
  apply dump_congr
  rw [List.length_drop, List.length_drop, hcount]

/-- If the dump of one array of this shape is right, and these are the writes of another, they
are inside the nodes and give the readable bytes. -/
theorem DumpsReadable.file {b' : ByteArray} {ws : List FileWrite} (hb : 1 ≤ base) (h : Rep base b)
    (h' : Rep base b') (hshape : SameShape b b') (hlt : b.position < b.capacity)
    (hws : writeToFile b = .ok ws b) (hd : DumpsReadable b') :
    fileOf ws b'.nodes = b'.unread ∧ ∀ w ∈ ws, w.Inside base b'.nodes.length := by
  obtain ⟨ws', str, hdump, hstr, heq, hin, -⟩ := hd
  rw [writeToFile_congr hb h h' hshape hlt hws] at hdump
  obtain rfl := (EStateM.Result.ok.inj hdump).1
  rw [toString_eq hb h'] at hstr
  obtain rfl := (EStateM.Result.ok.inj hstr).1
  rw [h'.baseSize_eq] at hin
  exact ⟨heq, hin⟩

/-- The first byte of a write, as a byte of the file. -/
theorem fileOf_getElem? {ns : List Node} (hu : Uniform base ns) (pre : List FileWrite) {w : FileWrite}
    (hw : w.Inside base ns.length) (post : List FileWrite) :
    (fileOf (pre ++ w :: post) ns)[(fileOf pre ns).length]? =
      ns.flatten[base * w.node + w.diff.toNat]? := by
  have hlen : 0 < (w.bytes ns).length := by
    have hpos := hw.1
    rw [bytes_length hu hw]
    omega
  rw [← bytes_head hu hw, fileOf, fileOf, List.flatMap_append, List.flatMap_cons,
    List.getElem?_append_right (Nat.le_refl _), Nat.sub_self, List.getElem?_append_left hlen]

/-- If the dump is right whatever the bytes are, each write starts where the writes before it
have come to. -/
theorem dump_places (hb : 1 ≤ base) {host : Endian} (hr : (machine host base).Reachable b)
    (hall : ∀ b', (machine host base).Reachable b' → SameShape b b' → DumpsReadable b')
    (hlt : b.position < b.capacity) (pre : List FileWrite) {w : FileWrite} {post : List FileWrite}
    (hws : writeToFile b = .ok (pre ++ w :: post) b) :
    w.Inside base b.nodes.length ∧
      base * w.node + w.diff.toNat = b.position + (fileOf pre b.nodes).length := by
  have h := rep_reachable hb hr
  obtain ⟨-, hin⟩ := (hall b hr ⟨rfl, rfl, rfl⟩).file hb h h ⟨rfl, rfl, rfl⟩ hlt hws
  have hpre : ∀ v ∈ pre, v.Inside base b.nodes.length := fun v hv => hin v (List.mem_append_left _ hv)
  have hw := hin w (List.mem_append_right _ List.mem_cons_self)
  refine ⟨hw, ?_⟩
  -- in each array of this shape, this byte is the first one of `w`
  have hbyte : ∀ b', (machine host base).Reachable b' → SameShape b b' →
      b'.contents[b.position + (fileOf pre b.nodes).length]? =
        b'.flat[base * w.node + w.diff.toNat]? := by
    intro b' hr' hshape
    have h' := rep_reachable hb hr'
    obtain ⟨heq, hin'⟩ := (hall b' hr' hshape).file hb h h' hshape hlt hws
    have hsame : (fileOf pre b.nodes).length = (fileOf pre b'.nodes).length := by
      rw [fileOf_length h.node_size hpre,
        fileOf_length h'.node_size (fun v hv => hin' v (List.mem_append_left _ hv))]
    rw [flat, ← fileOf_getElem? h'.node_size pre (hin' w (List.mem_append_right _ List.mem_cons_self))
      post, heq, unread, List.getElem?_drop, hshape.position_eq, hsame]
  have hflat : base * w.node + w.diff.toNat < b.flat.length := by
    obtain ⟨hlen, hdiff, hnode, hend⟩ := hw
    have hnext : base * w.node + base ≤ base * b.nodes.length := by
      rw [← Nat.mul_succ]
      exact Nat.mul_le_mul_left base hnode
    rw [h.flat_length, h.capacity_eq]
    omega
  have hsize : b.position + (fileOf pre b.nodes).length < b.size := by
    have hself := hbyte b hr ⟨rfl, rfl, rfl⟩
    rw [List.getElem?_eq_getElem hflat] at hself
    have hin := (List.getElem?_eq_some_iff.mp hself).1
    rw [h.contents_length] at hin
    exact hin
  by_contra hne
  obtain ⟨b', hr', hshape, hset⟩ := reachable_poke hb hr hsize
    ((b.flat[base * w.node + w.diff.toNat]?).getD 0 + 1)
  have hbad := hbyte b' hr' hshape
  have hin := hsize
  rw [← h.contents_length, contents, List.length_take, ← hshape.size_eq] at hin
  rw [contents, List.getElem?_take_of_lt (by omega), hset, List.getElem?_set_self (by omega),
    List.getElem?_set_ne (fun he => hne he.symm), List.getElem?_eq_getElem hflat] at hbad
  simp at hbad

/-- The second turn is taken in the next node, so a first one that stops inside its node with
bytes left is wrong. -/
theorem dumpable_of_all (hb : 1 ≤ base) {host : Endian} (hr : (machine host base).Reachable b)
    (hall : ∀ b', (machine host base).Reachable b' → SameShape b b' → DumpsReadable b') :
    Dumpable b := by
  have h := rep_reachable hb hr
  have hsize := h.size_le
  have hread := h.getReadSize_eq
  unfold Dumpable
  rw [h.baseSize_eq]
  by_cases hz : b.getReadSize = 0
  · exact .inl hz
  right
  have hlt : b.position < b.capacity := by omega
  obtain ⟨-, hin, hdiv, hmod⟩ := h.cur_inside hb hlt
  obtain ⟨ws, -, hws, -⟩ := hall b hr ⟨rfl, rfl, rfl⟩
  have hdump := (writeToFile_iff hb h hlt ws).mp hws
  obtain ⟨len, ws', rfl⟩ := dump_uncons (by omega) hdump
  have hint : b.position % base < 2 ^ 31 := by
    obtain ⟨⟨-, hdiff, -⟩, hplace⟩ := dump_places hb hr hall hlt [] hws
    have hzero : (fileOf [] b.nodes).length = 0 := rfl
    have hbound := nodeOffset_lt base (base * (b.position / base) + b.position % base : Nat)
    simp only at hdiff hplace
    generalize nodeOffset base (base * (b.position / base) + b.position % base : Nat) = diff at *
    omega
  refine ⟨hint, ?_⟩
  by_contra hno
  obtain ⟨hoff, hshort⟩ := not_or.mp hno
  have hmin : min (base : Int) b.getReadSize = b.getReadSize := by omega
  have hleft : (b.getReadSize : Int) - (b.getReadSize - (b.position % base : Nat)) =
      (b.position % base : Nat) := by
    omega
  rw [List.drop_eq_getElem_cons hin, dump_cons _ _ hmod hint (by omega), hmin, hleft] at hdump
  obtain ⟨vs, hnext, hcons⟩ := Option.map_eq_some_iff.mp hdump
  obtain ⟨len', vs', rfl⟩ := dump_uncons (by omega) hnext
  rw [← hcons] at hws
  obtain ⟨hfirst, -⟩ := dump_places hb hr hall hlt [] hws
  obtain ⟨-, hplace⟩ := dump_places hb hr hall hlt [_] hws
  rw [fileOf, List.flatMap_singleton, bytes_length h.node_size hfirst, Nat.mul_succ] at hplace
  simp only at hplace
  generalize nodeOffset base ((base * (b.position / base) : Nat) + b.getReadSize) = diff at hplace
  omega

/-- A dump of an array of this shape is its readable bytes, whatever they are, exactly when the
position is at the start of a node or as much as a node is left. -/
theorem file_dump_iff (hb : 1 ≤ base) {host : Endian} (hr : (machine host base).Reachable b) :
    (∀ b', (machine host base).Reachable b' → SameShape b b' → DumpsReadable b') ↔
      Dumpable b := by
  constructor
  · intro hall
    exact dumpable_of_all hb hr hall
  · intro hd b' hr' hshape
    have h := rep_reachable hb hr
    have h' := rep_reachable hb hr'
    apply Dumpable.dumps hb h'
    unfold Dumpable getReadSize at hd ⊢
    rw [hshape.position_eq, hshape.size_eq, h'.baseSize_eq]
    rw [h.baseSize_eq] at hd
    exact hd

/-- A dump of two nodes and a half, from the middle of the first on. -/
theorem file_dump_across :
    ∃ b, (machine .little 2).Reachable b ∧ b.position = 1 ∧ DumpsReadable b := by
  obtain ⟨b, hr, hp⟩ := Lib.Machine.exists_of_exec (machine .little 2)
    (s := create 2 (fun _ _ => 0)) (fun b => b.position = 1 ∧ b.getReadSize = 4)
    [.write (fun _ _ => 0) [1, 2, 3, 4, 5], .setPosition 1] ⟨_, rfl⟩ (by decide)
  have hbase := (rep_reachable (by decide) hr).baseSize_eq
  refine ⟨b, hr, hp.1, (file_dump_iff (by decide) hr).mpr ?_ b hr ⟨rfl, rfl, rfl⟩⟩
  unfold Dumpable
  rw [hp.1, hp.2, hbase]
  exact .inr ⟨by decide, .inr (by decide)⟩

/-- Two bytes are left behind the first one of a node of four: one of them is written, and
then the loop goes on to a node that is not there. -/
theorem file_dump_short :
    ∃ b, (machine .little 4).Reachable b ∧ toString b = .ok [2, 3] b ∧
      writeToFile b = .error .nullNode b ∧ ¬DumpsReadable b := by
  have hr : (machine .little 4).Reachable
      { baseSize := 4, position := 1, capacity := 4, size := 3, nodes := [[1, 2, 3, 0]],
        cur := some 0 } :=
    Lib.Machine.reachable_of_exec (s := create 4 (fun _ _ => 0))
      [.write (fun _ _ => 0) [1, 2, 3], .setPosition 1] ⟨_, rfl⟩ (by decide)
  refine ⟨_, hr, rfl, rfl, ?_⟩
  intro hd
  obtain ⟨ws, str, hws, -⟩ := hd
  cases hws

end WriteToFile

end HxSylar.ByteArray
