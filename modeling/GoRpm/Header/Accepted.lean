import GoRpm.Header.RoundTrip

/-!
What `Next` does on any input it accepts, not only on what `WriteTo` wrote. Every value is read
from the bytes of its span, and the spans are consumed one after the other from where the index
ends: the reader never seeks. So `Next` consumes, after the alignment gap, the preamble and the
index, exactly `Length` minus the smallest `Offset` data bytes, and reads each value from its
offset counted from that smallest one. Inputs whose smallest offset is not zero, whose last value
is followed by padding, or whose values are followed by eight bytes or more that `ReadFrom`
swallows, are accepted all the same; the examples below show each.
-/

namespace GoRpm

theorem splitNul_some : ∀ {buf line rest : List UInt8}, splitNul buf = some (line, rest) →
    buf = line ++ 0 :: rest
  | [], _, _, h => by simp [splitNul] at h
  | b :: bs, line, rest, h => by
    by_cases hb : b = 0
    · simp only [splitNul, hb, if_true, Option.some.injEq, Prod.mk.injEq] at h
      obtain ⟨rfl, rfl⟩ := h
      simp [hb]
    · simp only [splitNul, hb, if_false, Option.map_eq_some', Prod.mk.injEq] at h
      obtain ⟨⟨l, r⟩, hs, rfl, rfl⟩ := h
      simp [splitNul_some hs]

/-- `ReadBytes` moves bytes from the source to the buffer and from the buffer to the line it
returns, and loses none. -/
theorem readBytes_ok : ∀ (fuel : Nat) (acc buf src : List UInt8)
    {line buf' src' : List UInt8}, readBytes acc buf src fuel = .ok (line, buf', src') →
    line ++ buf' ++ src' = acc ++ buf ++ src := by
  intro fuel
  induction fuel with
  | zero =>
    intro acc buf src line buf' src' h
    unfold readBytes at h
    split at h
    · rename_i l r hs
      cases h
      simp [splitNul_some hs]
    · cases h
  | succ fuel ih =>
    intro acc buf src line buf' src' h
    unfold readBytes at h
    split at h
    · rename_i l r hs
      cases h
      simp [splitNul_some hs]
    · split_ifs at h with hsrc hfull
      · rw [ih _ _ _ h]; simp
      · rw [ih _ _ _ h]; simp

/-- The strings `tagString.ReadFrom` reads: the lines it consumed, of total length `len`,
followed by what is left buffered and what was never read, make up its input. -/
theorem readStrings_ok : ∀ (n : Nat) (buf src : List UInt8)
    {data : List (List UInt8)} {len : Nat} {buf' src' : List UInt8},
    readStrings buf src n = .ok (data, len, buf', src') →
    ∃ consumed : List UInt8, consumed.length = len ∧ consumed ++ buf' ++ src' = buf ++ src
  | 0, buf, src, _, _, _, _, h => by cases h; exact ⟨[], rfl, rfl⟩
  | n + 1, buf, src, data, len, buf', src', h => by
    obtain ⟨⟨sb, b1, s1⟩, h1, h⟩ := bind_eq_ok h
    obtain ⟨⟨data', len', b2, s2⟩, h2, h⟩ := bind_eq_ok h
    cases h
    obtain ⟨consumed, hlen, hcat⟩ := readStrings_ok n b1 s1 h2
    refine ⟨sb ++ consumed, by simp [hlen], ?_⟩
    have hline := readBytes_ok _ [] buf src h1
    calc sb ++ consumed ++ buf' ++ src' = sb ++ (consumed ++ buf' ++ src') := by simp
      _ = buf ++ src := by rw [hcat, ← List.append_assoc, hline, List.nil_append]

theorem readWords_ok {α : Type} {w : Nat} {get : List UInt8 → α} {count : Nat}
    {lim : List UInt8} {xs : List α} {rest : List UInt8}
    (h : readWords w get count lim = .ok (xs, rest)) :
    count * w ≤ lim.length ∧ rest = lim.drop (count * w) := by
  unfold readWords readFull at h
  split_ifs at h with hle
  cases h
  exact ⟨hle, rfl⟩

/-- `ReadFrom` of any container reads a prefix of its input and counts it: the count `w` it
returns and the bytes it leaves unread add up to the input. -/
theorem Slot.readFrom_ok {s : Slot} {lim : List UInt8} {d : TagData} {w : Nat}
    {lim' : List UInt8} (h : s.readFrom lim = .ok (d, w, lim')) :
    w + lim'.length = lim.length ∧ lim' = lim.drop w := by
  cases s with
  | bytes count =>
    simp only [Slot.readFrom] at h
    split_ifs at h
    cases h
    simp
  | string count =>
    simp only [Slot.readFrom] at h
    split at h
    · rename_i data len buf rest hread
      cases h
      obtain ⟨consumed, hlen, hcat⟩ := readStrings_ok count [] lim hread
      rw [List.nil_append] at hcat
      subst hcat
      constructor
      · simp [hlen]; omega
      · simp [← hlen, Nat.add_comm, List.drop_append_eq_append_drop]
    · cases h
  | uint16 count | uint32 count | uint64 count =>
    obtain ⟨⟨xs, rest⟩, hw, h⟩ := bind_eq_ok h
    cases h
    obtain ⟨hle, rfl⟩ := readWords_ok hw
    exact ⟨by rw [List.length_drop]; omega, rfl⟩

theorem TagHeader.readFrom_shaped {v : TagHeader} {a b : UInt32} {s : Slot}
    (hs : v.make a b = .ok s) {lim : List UInt8} {d : TagData} {w : Nat} {lim' : List UInt8}
    (h : s.readFrom lim = .ok (d, w, lim')) : d.Shaped v.type := by
  dsimp only [TagHeader.make] at hs
  by_cases h16 : v.type = rpmInt16Type
  · rw [if_pos h16] at hs
    cases eq_of_ite_error_ok hs
    obtain ⟨_, -, ⟨⟩⟩ := bind_eq_ok h
    exact h16
  rw [if_neg h16] at hs
  by_cases h32 : v.type = rpmInt32Type
  · rw [if_pos h32] at hs
    cases eq_of_ite_error_ok hs
    obtain ⟨_, -, ⟨⟩⟩ := bind_eq_ok h
    exact h32
  rw [if_neg h32] at hs
  by_cases h64 : v.type = rpmInt64Type
  · rw [if_pos h64] at hs
    cases eq_of_ite_error_ok hs
    obtain ⟨_, -, ⟨⟩⟩ := bind_eq_ok h
    exact h64
  rw [if_neg h64] at hs
  by_cases hstr : v.type = rpmStringType ∨ v.type = rpmI18nstringType ∨ v.type = rpmStringArrayType
  · rw [if_pos hstr] at hs
    cases eq_of_ite_error_ok hs
    simp only [Slot.readFrom] at h
    split at h <;> cases h
    exact hstr
  rw [if_neg hstr] at hs
  by_cases hbin : v.type = rpmBinType ∨ v.type = rpmCharType ∨ v.type = rpmInt8Type
  · rw [if_pos hbin] at hs
    cases eq_of_ite_error_ok hs
    simp only [Slot.readFrom] at h
    split_ifs at h
    cases h
    exact hbin
  rw [if_neg hbin] at hs
  cases hs

/-- One pass of the loop of `Next` consumes exactly the tag's span, `nt - Offset`, from where
the previous value stopped, keeps the tag's index entry, and fills a value of the shape its
type calls for. -/
theorem Reader.readTag_ok {r : Reader} {v : TagHeader} {nt : UInt32} {t : Tag} {r' : Reader}
    (h : r.readTag v nt = .ok (t, r')) :
    v.offset.toNat < nt.toNat ∧ nt.toNat - v.offset.toNat ≤ r.rest.length ∧
      r' = { rest := r.rest.drop (nt.toNat - v.offset.toNat),
             off := r.off + (nt.toNat - v.offset.toNat) } ∧ t.toTagHeader = v ∧
      t.data.Shaped t.type := by
  unfold Reader.readTag at h
  cases halign : tagaligned r.off v.type
  · simp only [halign, Bool.not_false, if_true, throw_eq_error, error_bind] at h
    cases h
  by_cases hnt : nt ≤ v.offset
  · simp only [halign, hnt, Bool.not_true, Bool.false_eq_true, if_false, if_true, pure_eq_ok,
      ok_bind, throw_eq_error, error_bind] at h
    cases h
  have hlt : v.offset.toNat < nt.toNat := Nat.lt_of_not_le (fun hle => hnt (uint32_le_iff.mpr hle))
  have hnr : (nt - v.offset).toNat = nt.toNat - v.offset.toNat := toNat_sub_of_lt hlt
  simp only [halign, hnt, Bool.not_true, Bool.false_eq_true, if_false, pure_eq_ok, ok_bind, hnr] at h
  obtain ⟨slot, hmake, h1⟩ := bind_eq_ok h
  obtain ⟨⟨d, w, lim'⟩, hread, h⟩ := bind_eq_ok h1
  have hshaped := TagHeader.readFrom_shaped hmake hread
  obtain ⟨hw, -⟩ := Slot.readFrom_ok hread
  rw [List.length_take] at hw h
  simp only [← hw, Nat.add_sub_cancel, throw_eq_error, error_bind] at h
  split_ifs at h <;> cases h
  all_goals
    have hle : nt.toNat - v.offset.toNat ≤ r.rest.length := by
      have := min_le_right (nt.toNat - v.offset.toNat) r.rest.length
      have := min_le_left (nt.toNat - v.offset.toNat) r.rest.length
      omega
    refine ⟨hlt, hle, ?_, rfl, hshaped⟩
    congr 2 <;> omega

/-- The loop of `Next`, started at the tag with the smallest offset, consumes everything from
that offset to `Length`, span after span, keeps the index entries in order, and returns tags of
strictly increasing offsets, each with a value of the shape its type calls for. -/
theorem Reader.readTags_ok {length : UInt32} : ∀ (vs : List TagHeader) (v : TagHeader)
    (r : Reader) {ts : List Tag} {r' : Reader}, r.readTags length (v :: vs) = .ok (ts, r') →
    v.offset.toNat < length.toNat ∧ length.toNat - v.offset.toNat ≤ r.rest.length ∧
      r' = { rest := r.rest.drop (length.toNat - v.offset.toNat),
             off := r.off + (length.toNat - v.offset.toNat) } ∧
      ts.map (·.toTagHeader) = v :: vs ∧
      ts.Chain' (fun a b => a.offset.toNat < b.offset.toNat) ∧ ∀ t ∈ ts, t.data.Shaped t.type
  | [], v, r, ts, r', h => by
    obtain ⟨⟨t, r1⟩, h1, h⟩ := bind_eq_ok h
    cases h
    obtain ⟨hlt, hle, rfl, ht, hshaped⟩ := Reader.readTag_ok h1
    exact ⟨hlt, hle, rfl, by simp [ht], List.chain'_singleton t, by simpa using hshaped⟩
  | w :: vs, v, r, ts, r', h => by
    obtain ⟨⟨t, r1⟩, h1, h⟩ := bind_eq_ok h
    obtain ⟨⟨ts', r2⟩, h2, h⟩ := bind_eq_ok h
    cases h
    obtain ⟨hlt, hle, rfl, rfl, hshaped⟩ := Reader.readTag_ok h1
    obtain ⟨hlt', hle', rfl, hts, hchain, hshaped'⟩ := Reader.readTags_ok vs w _ h2
    simp only [List.length_drop] at hle'
    obtain ⟨t', ts'', rfl⟩ : ∃ t' ts'', ts' = t' :: ts'' :=
      List.exists_cons_of_ne_nil (fun h0 => by simp [h0] at hts)
    simp only [List.map_cons, List.cons.injEq] at hts
    refine ⟨by omega, by omega, ?_, by simp [hts], List.chain'_cons.mpr ⟨by rw [hts.1]; exact hlt,
      hchain⟩, List.forall_mem_cons.mpr ⟨hshaped, hshaped'⟩⟩
    simp only [List.drop_drop, Reader.mk.injEq]
    exact ⟨by congr 1; omega, by omega⟩

/-- The `n` index entries that the sixteen-byte records from the start of `b` decode to. -/
def indexAt : Nat → List UInt8 → List TagHeader
  | 0, _ => []
  | n + 1, b => TagHeader.decode b :: indexAt n (b.drop 16)

@[simp] theorem length_indexAt (n : Nat) (b : List UInt8) : (indexAt n b).length = n := by
  induction n generalizing b with
  | zero => rfl
  | succ n ih => simp [indexAt, ih]

theorem TagHeader.decode_take (b : List UInt8) :
    TagHeader.decode (b.take 16) = TagHeader.decode b := by
  simp [TagHeader.decode, getUint32, List.drop_take, List.take_take]

theorem HeaderPre.decode_take (b : List UInt8) :
    HeaderPre.decode (b.take 16) = HeaderPre.decode b := by
  simp [HeaderPre.decode, getUint32, List.drop_take, List.take_take]

theorem Reader.align_ok {r r' : Reader} (h : r.align = .ok r') :
    (8 - r.off % 8) % 8 ≤ r.rest.length ∧
      r' = { rest := r.rest.drop ((8 - r.off % 8) % 8), off := r.off + (8 - r.off % 8) % 8 } := by
  unfold Reader.align at h
  simp only [andNot_add_seven_sub] at h
  split_ifs at h with hn
  cases h
  refine ⟨by omega, ?_⟩
  congr 2 <;> omega

theorem Reader.header_ok {r r' : Reader} {pre : HeaderPre} (h : r.header = .ok (pre, r')) :
    16 ≤ r.rest.length ∧ r.rest.take 8 = rpmHeaderMagic ∧ pre = HeaderPre.decode r.rest ∧
      r' = { rest := r.rest.drop 16, off := r.off + 16 } := by
  unfold Reader.header at h
  split at h
  · cases h
  · rename_i b rest hb
    obtain ⟨hle, rfl, rfl⟩ := readFull_ok hb
    split_ifs at h with hmagic
    cases h
    simp only [List.take_take, Nat.min_def, if_pos (by norm_num : 8 ≤ 16), not_not] at hmagic
    exact ⟨hle, hmagic, HeaderPre.decode_take _, rfl⟩

theorem Reader.tags_ok {length : UInt32} : ∀ (n : Nat) (r : Reader) {ths : List TagHeader}
    {r' : Reader}, r.tags length n = .ok (ths, r') →
    ths = indexAt n r.rest ∧ 16 * n ≤ r.rest.length ∧
      r' = { rest := r.rest.drop (16 * n), off := r.off + 16 * n } ∧
      ∀ v ∈ ths, v.offset.toNat ≤ length.toNat
  | 0, r, _, _, h => by cases h; simp [indexAt]
  | n + 1, r, ths, r', h => by
    unfold Reader.tags at h
    split at h
    · cases h
    · rename_i b rest hb
      obtain ⟨hle, rfl, rfl⟩ := readFull_ok hb
      simp only [gt_iff_lt] at h
      split_ifs at h with hoob
      obtain ⟨⟨ts, r1⟩, h1, h⟩ := bind_eq_ok h
      cases h
      obtain ⟨rfl, hle1, rfl, hoff⟩ := Reader.tags_ok n _ h1
      simp only [List.length_drop] at hle1
      refine ⟨by simp [indexAt, TagHeader.decode_take], by omega, ?_, ?_⟩
      · simp only [List.drop_drop, Reader.mk.injEq]
        exact ⟨by congr 1; omega, by omega⟩
      · intro v hv
        rcases List.mem_cons.mp hv with rfl | hv
        · exact Nat.le_of_not_lt (fun hlt => hoob (uint32_lt_iff.mpr hlt))
        · exact hoff v hv

theorem sortByOffset_head_le {α : Type} {offset : α → UInt32} :
    ∀ {xs : List α} {v : α} {vs : List α}, sortByOffset offset xs = v :: vs →
    ∀ u ∈ xs, (offset v).toNat ≤ (offset u).toNat
  | [], _, _, h => by simp [sortByOffset] at h
  | a :: l, v, vs, h => by
    intro u hu
    simp only [sortByOffset, List.insertionSort] at h
    cases hl : l.insertionSort (fun a b => offset a ≤ offset b) with
    | nil =>
      have hnil : l = [] := List.eq_nil_of_length_eq_zero
        (by rw [← List.length_insertionSort (fun a b => offset a ≤ offset b) l, hl]; rfl)
      subst hnil
      simp only [hl, List.orderedInsert, List.cons.injEq] at h
      rw [← h.1, List.mem_singleton.mp hu]
    | cons b bs =>
      have ih := sortByOffset_head_le hl
      rw [hl] at h
      simp only [List.orderedInsert] at h
      split_ifs at h with hab
      · obtain ⟨rfl, -⟩ := List.cons.inj h
        rcases List.mem_cons.mp hu with rfl | hu
        · exact le_rfl
        · exact le_trans (uint32_le_iff.mp hab) (ih u hu)
      · obtain ⟨rfl, -⟩ := List.cons.inj h
        rcases List.mem_cons.mp hu with rfl | hu
        · exact Nat.le_of_lt (Nat.lt_of_not_le (fun hle => hab (uint32_le_iff.mpr hle)))
        · exact ih u hu

/-- What `Next` consumes, on any input it accepts: the gap to a multiple of eight, the preamble
and the `Count` index entries the stream holds there and, when there is a tag, the data from
the smallest `Offset` up to `Length`, and nothing of the data region when there is none. -/
theorem Reader.next_consumed {r r' : Reader} {hdr : Header} (h : r.next = .ok (hdr, r')) :
    let pad := (8 - r.off % 8) % 8
    let pre := HeaderPre.decode (r.rest.drop pad)
    let ths := indexAt pre.count.toNat ((r.rest.drop pad).drop 16)
    ∃ span, r' = { rest := r.rest.drop (pad + 16 + 16 * ths.length + span),
                   off := r.off + (pad + 16 + 16 * ths.length + span) } ∧
      (ths = [] → span = 0) ∧
      ∀ v ∈ ths, (∀ u ∈ ths, v.offset.toNat ≤ u.offset.toNat) →
        span = pre.length.toNat - v.offset.toNat := by
  intro pad pre ths
  obtain ⟨r1, h1, hA⟩ := bind_eq_ok h
  clear h
  obtain ⟨⟨pre', r2⟩, h2, hB⟩ := bind_eq_ok hA
  clear hA
  obtain ⟨⟨ths', r3⟩, h3, hC⟩ := bind_eq_ok hB
  clear hB
  obtain ⟨-, rfl⟩ := Reader.align_ok h1
  obtain ⟨-, -, rfl, rfl⟩ := Reader.header_ok h2
  obtain ⟨rfl, -, rfl, -⟩ := Reader.tags_ok _ _ h3
  clear h1 h2 h3
  simp only [] at hC
  by_cases hnil : ths = []
  · rw [if_pos hnil] at hC
    cases hC
    refine ⟨0, ?_, fun _ => rfl, fun v hv => absurd hv (by simp [hnil])⟩
    simp only [List.drop_drop, Reader.mk.injEq, ths, pre, pad, length_indexAt, Nat.add_zero]
    exact ⟨trivial, by omega⟩
  · rw [if_neg hnil] at hC
    simp only [pure_eq_ok, ok_bind] at hC
    obtain ⟨⟨tags, r4⟩, h4, hD⟩ := bind_eq_ok hC
    clear hC
    cases hD
    have hperm : (sortByOffset (·.offset) ths).Perm ths := List.perm_insertionSort _ _
    obtain ⟨v, vs, hsort⟩ : ∃ v vs, sortByOffset (·.offset) ths = v :: vs :=
      List.exists_cons_of_ne_nil (fun h0 => hnil (by rw [h0] at hperm; exact hperm.symm.eq_nil))
    rw [show sortByOffset (·.offset) ths = v :: vs from hsort] at h4
    obtain ⟨-, -, rfl, -⟩ := Reader.readTags_ok vs v _ h4
    have hvmem : v ∈ ths := hperm.subset (by rw [hsort]; exact List.mem_cons_self v vs)
    have hvmin := sortByOffset_head_le hsort
    refine ⟨pre.length.toNat - v.offset.toNat, ?_, fun h0 => absurd h0 hnil, ?_⟩
    · simp only [List.drop_drop, Reader.mk.injEq, ths, pre, pad, length_indexAt]
      exact ⟨trivial, by omega⟩
    · intro u hu humin
      have := hvmin u hu
      have := humin v hvmem
      omega

/-- A header of one `BIN` value at `Offset` 4 of an 8-byte data region. -/
def offsetFourBytes : List UInt8 :=
  HeaderPre.writeTo ⟨1, 8⟩ ++ TagHeader.writeTo ⟨1000, rpmBinType, 4, 1⟩ ++ [1, 2, 3, 4, 5, 6, 7, 8]

theorem Reader.next_consumed_offsetFour :
    ∃ hdr r', (Reader.ofBytes offsetFourBytes).next = .ok (hdr, r') ∧
      let r := Reader.ofBytes offsetFourBytes
      let pad := (8 - r.off % 8) % 8
      let pre := HeaderPre.decode (r.rest.drop pad)
      let ths := indexAt pre.count.toNat ((r.rest.drop pad).drop 16)
      ∃ span, r' = { rest := r.rest.drop (pad + 16 + 16 * ths.length + span),
                     off := r.off + (pad + 16 + 16 * ths.length + span) } ∧
        (ths = [] → span = 0) ∧
        ∀ v ∈ ths, (∀ u ∈ ths, v.offset.toNat ≤ u.offset.toNat) →
          span = pre.length.toNat - v.offset.toNat :=
  ⟨_, _, rfl, Reader.next_consumed rfl⟩

/-- A header whose only value sits at `Offset` 4 of an 8-byte data region: `Next` takes the
value from the first byte of the region, not from byte 4, and stops four bytes short of
`Length`, where the next `Next` would start. -/
theorem next_reads_from_smallest_offset :
    (Reader.ofBytes (HeaderPre.writeTo ⟨1, 8⟩ ++ TagHeader.writeTo ⟨1000, rpmBinType, 4, 1⟩ ++
        [1, 2, 3, 4, 5, 6, 7, 8])).next =
      .ok ({ off := 8, tags := [{ tag := 1000, type := rpmBinType, offset := 4, count := 1,
                                   data := .bytes [1] }] },
           { rest := [5, 6, 7, 8], off := 36 }) := rfl

/-- A `BIN` value (or `CHAR`, `INT8`) is accepted with any span at least `Count` long:
`tagBytes.ReadFrom` drains the span, so the check that fewer than eight bytes are left over
never sees the leftover. -/
theorem Reader.readTag_bytes {r : Reader} {v : TagHeader} {nt : UInt32}
    (htype : v.type = rpmBinType) (hlt : v.offset < nt)
    (hcount : v.count.toNat ≤ (nt - v.offset).toNat) (hlen : (nt - v.offset).toNat ≤ r.rest.length) :
    r.readTag v nt = .ok ({ v with data := .bytes (r.rest.take v.count.toNat) },
      { rest := r.rest.drop (nt - v.offset).toNat, off := r.off + (nt - v.offset).toNat }) := by
  have hnt : ¬ nt ≤ v.offset := fun hle => absurd hlt (UInt32.not_lt.mpr hle)
  have hmake : v.make v.offset nt = .ok (.bytes v.count.toNat) := by
    simp [TagHeader.make, htype, rpmBinType, rpmInt16Type, rpmInt32Type, rpmInt64Type,
      rpmStringType, rpmI18nstringType, rpmStringArrayType, rpmCharType, rpmInt8Type]
    omega
  have htake : (r.rest.take (nt - v.offset).toNat).length = (nt - v.offset).toNat := by
    simp; omega
  have hfit : ¬ (nt - v.offset).toNat < v.count.toNat := by omega
  simp only [Reader.readTag, tagaligned, htype, hnt, hmake, Slot.readFrom, htake, hfit, ok_bind,
    if_false, pure_eq_ok]
  simp [rpmBinType, rpmInt16Type, rpmInt32Type, rpmInt64Type, List.take_take, min_eq_left hcount]

/-- Two headers `Next` accepts although they break the layout it is meant to check: a `BIN`
value of one byte with fifteen bytes of its span left over, and an `INT32` value at `Offset` 2,
accepted because the stream offset, not the `Offset`, is a multiple of four. -/
theorem next_accepts_long_span_and_unaligned_offset :
    (Reader.ofBytes (HeaderPre.writeTo ⟨1, 16⟩ ++ TagHeader.writeTo ⟨1000, rpmBinType, 0, 1⟩ ++
        List.replicate 16 1)).next =
      .ok ({ off := 16, tags := [{ tag := 1000, type := rpmBinType, offset := 0, count := 1,
                                    data := .bytes [1] }] },
           { rest := [], off := 48 }) ∧
    (Reader.ofBytes (HeaderPre.writeTo ⟨1, 6⟩ ++ TagHeader.writeTo ⟨1000, rpmInt32Type, 2, 1⟩ ++
        [0, 0, 0, 9])).next =
      .ok ({ off := 6, tags := [{ tag := 1000, type := rpmInt32Type, offset := 2, count := 1,
                                   data := .uint32 [9] }] },
           { rest := [], off := 36 }) := ⟨rfl, rfl⟩

/-- An `INT16` value followed by two bytes of padding up to `Length`: `Next` accepts it and sets
`off` to `Length`, and `WriteTo` then refuses the header it returned, as its data end two bytes
before `Length`. -/
theorem next_trailing_padding_not_written :
    (Reader.ofBytes (HeaderPre.writeTo ⟨1, 4⟩ ++ TagHeader.writeTo ⟨1000, rpmInt16Type, 0, 1⟩ ++
        [0, 7, 0, 0])).next =
      .ok ({ off := 4, tags := [{ tag := 1000, type := rpmInt16Type, offset := 0, count := 1,
                                   data := .uint16 [7] }] },
           { rest := [], off := 36 }) ∧
    ({ off := 4, tags := [{ tag := 1000, type := rpmInt16Type, offset := 0, count := 1,
                            data := .uint16 [7] }] } : Header).writeTo = .error .dataLen :=
  ⟨rfl, rfl⟩

end GoRpm
