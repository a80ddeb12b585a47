import GoRpm.Header.Read

/-!
Writing a header and reading it back. A header whose tags are laid out as `Add` lays them out
(`Placed`), with non-empty NUL-free values whose type and count describe their shape, is
written by `WriteTo` without error, and `Next` on the bytes gives back the same header: the
same tags in the same order, the same region id, the same `off`. The proof follows the data:
`writeData` emits each value after its alignment gap, and `readTags` reads the gap as the
previous value's padding, so the reader meets each value at its offset although it never
seeks.
-/

namespace GoRpm

/-- The type code and count of a tag describe the shape of its value, as `make` checks. -/
def TagData.Typed (type count : UInt32) : TagData → Prop
  | .bytes b => (type = rpmBinType ∨ type = rpmCharType ∨ type = rpmInt8Type) ∧
      count.toNat = b.length
  | .string data => (type = rpmStringType ∨ type = rpmI18nstringType ∨ type = rpmStringArrayType) ∧
      count.toNat = data.length
  | .uint16 xs => type = rpmInt16Type ∧ count.toNat = xs.length
  | .uint32 xs => type = rpmInt32Type ∧ count.toNat = xs.length
  | .uint64 xs => type = rpmInt64Type ∧ count.toNat = xs.length

/-- The shape of a tag's value is the one its type code calls for: the container `make`
allocates, and the accessor the type switch of `MarshalJSON` picks. -/
def TagData.Shaped (type : UInt32) : TagData → Prop
  | .bytes _ => type = rpmBinType ∨ type = rpmCharType ∨ type = rpmInt8Type
  | .string _ => type = rpmStringType ∨ type = rpmI18nstringType ∨ type = rpmStringArrayType
  | .uint16 _ => type = rpmInt16Type
  | .uint32 _ => type = rpmInt32Type
  | .uint64 _ => type = rpmInt64Type

theorem TagData.Typed.shaped {type count : UInt32} {d : TagData} (h : d.Typed type count) :
    d.Shaped type := by
  cases d <;> exact h.1

/-- What the round trip needs of a tag: a non-empty value, no NUL inside a string, and a type
and count that match the value. -/
structure Tag.Sound (t : Tag) : Prop where
  len_pos : 0 < t.data.len
  nulFree : t.data.NulFree
  typed : t.data.Typed t.type t.count

theorem length_le_len_string (data : List (List UInt8)) :
    data.length ≤ (TagData.string data).len := by
  induction data with
  | nil => simp [TagData.len]
  | cons s data ih => simp only [TagData.len, List.map_cons, List.sum_cons, List.length_cons] at *; omega

theorem TagHeader.make_eq_slot {v : TagHeader} {d : TagData} (hd : d.Typed v.type v.count)
    {a b : UInt32} (hfit : d.len ≤ (b - a).toNat) : v.make a b = .ok d.slot := by
  cases d with
  | bytes bs =>
    obtain ⟨hty, hc⟩ := hd
    simp only [TagData.len] at hfit
    rcases hty with h | h | h <;> simp [TagHeader.make, h, hc, TagData.slot,
      rpmBinType, rpmCharType, rpmInt8Type, rpmInt16Type, rpmInt32Type, rpmInt64Type,
      rpmStringType, rpmI18nstringType, rpmStringArrayType] <;> omega
  | string data =>
    obtain ⟨hty, hc⟩ := hd
    have hle := length_le_len_string data
    rcases hty with h | h | h <;> simp [TagHeader.make, h, hc, TagData.slot,
      rpmBinType, rpmCharType, rpmInt8Type, rpmInt16Type, rpmInt32Type, rpmInt64Type,
      rpmStringType, rpmI18nstringType, rpmStringArrayType] <;> omega
  | uint16 xs =>
    obtain ⟨h, hc⟩ := hd
    simp only [TagData.len] at hfit
    simp [TagHeader.make, h, hc, TagData.slot, rpmInt16Type, Nat.shiftRight_eq_div_pow]
    omega
  | uint32 xs =>
    obtain ⟨h, hc⟩ := hd
    simp only [TagData.len] at hfit
    simp [TagHeader.make, h, hc, TagData.slot, rpmInt16Type, rpmInt32Type,
      Nat.shiftRight_eq_div_pow]
    omega
  | uint64 xs =>
    obtain ⟨h, hc⟩ := hd
    simp only [TagData.len] at hfit
    simp [TagHeader.make, h, hc, TagData.slot, rpmInt16Type, rpmInt32Type, rpmInt64Type,
      Nat.shiftRight_eq_div_pow]
    omega

/-- `Next` reads a sound tag whose span is its value followed by fewer than eight bytes:
it gets the value back and moves past the whole span. -/
theorem Reader.readTag_sound {r : Reader} {t : Tag} (ht : t.Sound) (nt : UInt32) (pad : List UInt8)
    (hpad : pad.length < 8) (hspan : (nt - t.offset).toNat = t.data.len + pad.length)
    (hlt : t.offset < nt) (halign : tagaligned r.off t.type = true) (tail : List UInt8)
    (hrest : r.rest = t.data.writeTo ++ pad ++ tail) :
    r.readTag t.toTagHeader nt =
      .ok (t, { rest := tail, off := r.off + (t.data.len + pad.length) }) := by
  obtain ⟨w, lim', hread, hw, hlim⟩ := readFrom_writeTo t.data ht.nulFree pad
  have hmake : t.toTagHeader.make t.offset nt = .ok t.data.slot :=
    TagHeader.make_eq_slot ht.typed (by omega)
  have htake : r.rest.take (t.data.len + pad.length) = t.data.writeTo ++ pad := by
    rw [hrest, List.take_left' (by simp)]
  have hdrop : r.rest.drop (t.data.len + pad.length) = tail := by
    rw [hrest, List.drop_left' (by simp)]
  have hnot : ¬ nt ≤ t.offset := fun h => absurd hlt (UInt32.not_lt.mpr h)
  have hleft : t.data.len + pad.length - (t.data.len + pad.length - lim'.length) =
      lim'.length := by omega
  simp only [Reader.readTag, halign, hnot, hmake, hspan, htake, Bool.not_true, Bool.false_eq_true,
    if_false, ite_false, ok_bind, hread, List.length_append, TagData.length_writeTo, hleft]
  by_cases hzero : lim'.length = 0
  · have hw' : w = t.data.len + pad.length := by omega
    simp [hzero, hw', hdrop]
  · have hw' : w + lim'.length = t.data.len + pad.length := hw
    have h8 : ¬ 8 ≤ lim'.length := by omega
    simp [hzero, hw', hdrop, h8]

/-- The data region `writeData` emits for placed tags, from position `p`: each value after the
zeros that bring the position to its offset. -/
def placedBytes : Nat → List Tag → List UInt8
  | _, [] => []
  | p, t :: ts => zeros (t.offset.toNat - p) ++ t.data.writeTo ++
      placedBytes (t.offset.toNat + t.data.len) ts

theorem alignUp_mod (p : Nat) (type : UInt32) : alignUp p (typeAlign type) % typeAlign type = 0 := by
  unfold alignUp; rcases typeAlign_cases type with h | h | h | h <;> rw [h] <;> omega

theorem alignUp_sub_lt (p : Nat) (type : UInt32) : alignUp p (typeAlign type) < p + typeAlign type := by
  unfold alignUp; rcases typeAlign_cases type with h | h | h | h <;> rw [h] <;> omega

theorem alignUp_of_mod {p : Nat} {type : UInt32} (h : p % typeAlign type = 0) :
    alignUp p (typeAlign type) = p := by
  unfold alignUp at *; rcases typeAlign_cases type with h' | h' | h' | h' <;> rw [h'] at h ⊢ <;> omega

theorem typeAlign_le_eight (type : UInt32) : typeAlign type ≤ 8 := by
  rcases typeAlign_cases type with h | h | h | h <;> omega

theorem tagaligned_of_mod {off o : Nat} {type : UInt32} (hmod : off % 8 = o % 8)
    (ho : o % typeAlign type = 0) : tagaligned off type = true := by
  have h1 : off &&& 1 = off % 2 := Nat.and_pow_two_sub_one_eq_mod off 1
  have h3 : off &&& 3 = off % 4 := Nat.and_pow_two_sub_one_eq_mod off 2
  have h7 : off &&& 7 = off % 8 := Nat.and_pow_two_sub_one_eq_mod off 3
  unfold tagaligned
  unfold typeAlign at ho
  split_ifs at ho ⊢ <;> simp only [decide_eq_true_eq, h1, h3, h7] <;> omega

theorem placed_le_end {p e : Nat} {ts : List Tag} (h : Placed p ts e) : p ≤ e := by
  induction ts generalizing p with
  | nil => exact h.ge
  | cons t ts ih => have := le_alignUp p t.type; have := ih h.2; rw [h.1] at this; omega

theorem toNat_sub_of_lt {a b : UInt32} (h : a.toNat < b.toNat) :
    (b - a).toNat = b.toNat - a.toNat := by
  rw [toNat_uint32_sub]
  have := uint32_toNat_lt b
  omega

/-- `readTags` over placed sound tags, started at the first value: it returns the tags and
stops at `e`, where the last one ends, reading every alignment gap as padding. -/
theorem Reader.readTags_placed {e : Nat} (he : e < 2 ^ 32) :
    ∀ (ts : List Tag) (t : Tag) (r : Reader) (tail : List UInt8),
      Placed t.offset.toNat (t :: ts) e → (∀ u ∈ t :: ts, u.Sound) →
      r.off % 8 = t.offset.toNat % 8 →
      r.rest = placedBytes t.offset.toNat (t :: ts) ++ tail →
      r.readTags (UInt32.ofNat e) ((t :: ts).map (·.toTagHeader)) =
        .ok (t :: ts, { rest := tail, off := r.off + (e - t.offset.toNat) }) := by
  intro ts
  induction ts with
  | nil =>
    intro t r tail hplaced hsound hmod hrest
    obtain ⟨hoff, rfl⟩ := hplaced
    have ht := hsound t (List.mem_singleton_self t)
    have he' : (UInt32.ofNat (t.offset.toNat + t.data.len)).toNat = t.offset.toNat + t.data.len := by
      simp; omega
    have hread := r.readTag_sound ht (UInt32.ofNat (t.offset.toNat + t.data.len)) []
      (by simp) (by rw [toNat_sub_of_lt (by rw [he']; have := ht.len_pos; omega), he']; simp)
      (uint32_lt_iff.mpr (by rw [he']; have := ht.len_pos; omega))
      (tagaligned_of_mod hmod (by rw [hoff]; exact alignUp_mod _ _)) tail
      (by simpa [placedBytes] using hrest)
    simp only [List.map_cons, List.map_nil, Reader.readTags, hread, ok_bind, pure_eq_ok]
    simp
  | cons u us ih =>
    intro t r tail hplaced hsound hmod hrest
    obtain ⟨hoff, huoff, hrestPlaced⟩ := hplaced
    have ht := hsound t (List.mem_cons_self t _)
    have hu := hsound u (List.mem_cons_of_mem t (List.mem_cons_self u us))
    have hgap : u.offset.toNat - (t.offset.toNat + t.data.len) < 8 := by
      have := alignUp_sub_lt (t.offset.toNat + t.data.len) u.type
      have := typeAlign_le_eight u.type
      omega
    have hge : t.offset.toNat + t.data.len ≤ u.offset.toNat := by
      rw [huoff]; exact le_alignUp _ _
    have hread := r.readTag_sound ht u.offset
      (zeros (u.offset.toNat - (t.offset.toNat + t.data.len))) (by simpa using hgap)
      (by rw [toNat_sub_of_lt (by have := ht.len_pos; omega)]; simp; omega)
      (uint32_lt_iff.mpr (by have := ht.len_pos; omega))
      (tagaligned_of_mod hmod (by rw [hoff]; exact alignUp_mod _ _))
      (placedBytes u.offset.toNat (u :: us) ++ tail)
      (by rw [hrest]; simp [placedBytes])
    have hnext := ih u (Reader.mk (placedBytes u.offset.toNat (u :: us) ++ tail)
        (r.off + (t.data.len + (zeros (u.offset.toNat - (t.offset.toNat + t.data.len))).length)))
      tail ⟨(alignUp_of_mod (by rw [huoff]; exact alignUp_mod _ _)).symm, hrestPlaced⟩
      (fun v hv => hsound v (List.mem_cons_of_mem t hv)) (by simp only [length_zeros]; omega) rfl
    have hend : u.offset.toNat ≤ e := by
      have := placed_le_end hrestPlaced
      omega
    simp only [List.map_cons] at hnext
    simp only [List.map_cons, Reader.readTags, hread, ok_bind]
    rw [hnext]
    simp only [ok_bind, pure_eq_ok, length_zeros]
    congr 3
    omega

/-- `WriteTo`'s data loop emits exactly `placedBytes` and stops at the end of the last value:
every alignment gap is below eight bytes, so `pad` accepts it. -/
theorem writeData_placed : ∀ (ts : List Tag) (p e : Nat), Placed p ts e →
    writeData p ts = .ok (placedBytes p ts, e)
  | [], p, e, h => by simp [writeData, placedBytes, h.symm]
  | t :: ts, p, e, ⟨hoff, hrest⟩ => by
    have hle := le_alignUp p t.type
    have hlt := alignUp_sub_lt p t.type
    have h8 := typeAlign_le_eight t.type
    have hpad : Header.pad t.offset p = .ok (zeros (t.offset.toNat - p)) := by
      simp only [Header.pad]
      rw [if_neg (by omega), if_neg (by omega)]
    have hnext := writeData_placed ts _ e hrest
    simp only [writeData, hpad, ok_bind, length_zeros, TagData.length_writeTo]
    rw [(by omega : p + (t.offset.toNat - p) + t.data.len = t.offset.toNat + t.data.len), hnext]
    simp [placedBytes]

theorem placedBytes_append {p e : Nat} {ts : List Tag} (h : Placed p ts e) (t : Tag) :
    placedBytes p (ts ++ [t]) = placedBytes p ts ++ (zeros (t.offset.toNat - e) ++ t.data.writeTo) := by
  induction ts generalizing p with
  | nil => subst h; simp [placedBytes]
  | cons u ts ih => simp [placedBytes, ih h.2]

theorem length_placedBytes {p e : Nat} {ts : List Tag} (h : Placed p ts e) :
    (placedBytes p ts).length = e - p := by
  induction ts generalizing p with
  | nil => simp [placedBytes, show e = p from h]
  | cons t ts ih =>
    have := le_alignUp p t.type
    have := placed_le_end h.2
    simp only [placedBytes, List.length_append, length_zeros, TagData.length_writeTo, ih h.2]
    rw [h.1] at *
    omega

theorem placed_pairwise {p e : Nat} {ts : List Tag} (h : Placed p ts e)
    (hpos : ∀ t ∈ ts, 0 < t.data.len) :
    ts.Pairwise (fun a b => a.offset.toNat < b.offset.toNat) ∧
      ∀ t ∈ ts, p ≤ t.offset.toNat ∧ t.offset.toNat + t.data.len ≤ e := by
  induction ts generalizing p with
  | nil => simp
  | cons t ts ih =>
    obtain ⟨hrel, hbound⟩ := ih h.2 (fun u hu => hpos u (List.mem_cons_of_mem t hu))
    have ht := hpos t (List.mem_cons_self t ts)
    have hp : p ≤ t.offset.toNat := h.1 ▸ le_alignUp p t.type
    have hend := placed_le_end h.2
    refine ⟨List.pairwise_cons.mpr ⟨fun u hu => by have := (hbound u hu).1; omega, hrel⟩, ?_⟩
    intro u hu
    rcases List.mem_cons.mp hu with rfl | hu
    · exact ⟨hp, hend⟩
    · have := hbound u hu; omega

theorem placed_chain : ∀ {p e : Nat} {ts : List Tag}, Placed p ts e →
    ts.Chain' (fun a b => a.offset.toNat + a.data.len ≤ b.offset.toNat ∧
      b.offset.toNat < a.offset.toNat + a.data.len + typeAlign b.type)
  | _, _, [], _ => List.chain'_nil
  | _, _, [_], _ => List.chain'_singleton _
  | _, _, t :: u :: us, ⟨_, hu, hrest⟩ => by
    have h1 := le_alignUp (t.offset.toNat + t.data.len) u.type
    have h2 := alignUp_sub_lt (t.offset.toNat + t.data.len) u.type
    exact List.Chain'.cons ⟨by omega, by omega⟩ (placed_chain ⟨hu, hrest⟩)

theorem placed_pairwise_le {p e : Nat} {ts : List Tag} (h : Placed p ts e) :
    ts.Pairwise (fun a b => a.offset.toNat ≤ b.offset.toNat) := by
  have : IsTrans Tag fun a b => a.offset.toNat ≤ b.offset.toNat := ⟨fun _ _ _ => Nat.le_trans⟩
  exact List.chain'_iff_pairwise.mp ((placed_chain h).imp fun _ _ hab => by omega)

theorem placed_aligned : ∀ {p e : Nat} {ts : List Tag}, Placed p ts e →
    ∀ t ∈ ts, t.offset.toNat % typeAlign t.type = 0
  | _, _, [], _ => by simp
  | p, _, u :: us, ⟨hu, hrest⟩ => by
    refine List.forall_mem_cons.mpr ⟨?_, placed_aligned hrest⟩
    rw [hu]
    exact alignUp_mod p u.type

theorem placed_head {p e : Nat} : ∀ {ts : List Tag}, Placed p ts e →
    ∀ t ∈ ts.head?, t.offset.toNat = alignUp p (typeAlign t.type)
  | [], _, _, ht => by cases ht
  | _ :: _, h, _, ht => by cases ht; exact h.1

theorem placed_getLast {lt : Tag} : ∀ {p e : Nat} {ts : List Tag}, Placed p ts e →
    ts.getLast? = some lt → lt.offset.toNat + lt.data.len = e
  | _, _, [], _, hlt => by cases hlt
  | _, _, [_], h, hlt => by cases hlt; exact h.2.symm
  | _, _, _ :: _ :: _, h, hlt => placed_getLast h.2 (by rwa [List.getLast?_cons_cons] at hlt)

theorem sortByOffset_eq_self_of_le {α : Type} {offset : α → UInt32} {xs : List α}
    (h : xs.Pairwise (fun a b => (offset a).toNat ≤ (offset b).toNat)) :
    sortByOffset offset xs = xs :=
  List.Sorted.insertionSort_eq (h.imp uint32_le_iff.mpr)

theorem sortByOffset_eq_self {α : Type} {offset : α → UInt32} {xs : List α}
    (h : xs.Pairwise (fun a b => (offset a).toNat < (offset b).toNat)) :
    sortByOffset offset xs = xs :=
  sortByOffset_eq_self_of_le (h.imp Nat.le_of_lt)

theorem sortByOffset_cons_last {α : Type} {offset : α → UInt32} {x : α} {xs : List α}
    (h : xs.Pairwise (fun a b => (offset a).toNat < (offset b).toNat))
    (hx : ∀ y ∈ xs, (offset y).toNat < (offset x).toNat) :
    sortByOffset offset (x :: xs) = xs ++ [x] := by
  have hins : ∀ ys : List α, (∀ y ∈ ys, (offset y).toNat < (offset x).toNat) →
      ys.orderedInsert (fun a b => offset a ≤ offset b) x = ys ++ [x] := by
    intro ys hys
    induction ys with
    | nil => rfl
    | cons y ys ih =>
      have hy := hys y (List.mem_cons_self y ys)
      have hnot : ¬ offset x ≤ offset y := fun hle => absurd (uint32_le_iff.mp hle) (by omega)
      simp [List.orderedInsert, hnot, ih (fun z hz => hys z (List.mem_cons_of_mem y hz))]
  simp only [sortByOffset, List.insertionSort]
  rw [List.Sorted.insertionSort_eq (h.imp fun hab => uint32_le_iff.mpr (Nat.le_of_lt hab))]
  exact hins xs hx

/-- `1` with a region, `0` without. -/
def Header.regionCount (hdr : Header) : Nat := hdr.region.toList.length

/-- The bytes `WriteTo` writes: preamble, index, data region with the region's value last. -/
def Header.size (hdr : Header) : Nat :=
  16 + 16 * (hdr.tags.length + hdr.regionCount) + (hdr.off.toNat + 16 * hdr.regionCount)

/-- The region's tag as a list: empty without a region. -/
def Header.regionTags (hdr : Header) : List Tag := hdr.region.toList.map hdr.regionTag

/-- The serialised form of a header: the preamble, the region's index entry then the others,
and the values placed from offset zero with the region's value after the last. -/
def Header.image (hdr : Header) : List UInt8 :=
  HeaderPre.writeTo { count := UInt32.ofNat (hdr.tags.length + hdr.regionCount),
                      length := UInt32.ofNat (hdr.off.toNat + 16 * hdr.regionCount) } ++
    (hdr.regionTags ++ hdr.tags).flatMap (·.toTagHeader.writeTo) ++
    placedBytes 0 (hdr.tags ++ hdr.regionTags)

/-- What the round trip needs of a header: tags laid out by `Add` with sound values, no tag
carrying a region id, a region (if any) with one, and a data region, the region's value
included, of fewer than `2 ^ 32` bytes. -/
structure Header.Sound (hdr : Header) : Prop where
  tags_ne : hdr.tags ≠ []
  placed : Placed 0 hdr.tags hdr.off.toNat
  tags_sound : ∀ t ∈ hdr.tags, t.Sound
  plain : ∀ t ∈ hdr.tags, isRegionTag t.tag = false
  region_id : ∀ id ∈ hdr.region, isRegionTag id = true
  data_lt : hdr.off.toNat + 16 * hdr.regionCount < 2 ^ 32

theorem uint32_ofNat_toNat (x : UInt32) : UInt32.ofNat x.toNat = x :=
  UInt32.toNat.inj (by rw [toNat_uint32_ofNat]; exact Nat.mod_eq_of_lt (uint32_toNat_lt x))

theorem Header.Sound.sorted {hdr : Header} (h : hdr.Sound) :
    sortByOffset (·.offset) hdr.tags = hdr.tags :=
  sortByOffset_eq_self (placed_pairwise h.placed (fun t ht => (h.tags_sound t ht).len_pos)).1

theorem placed_length_le {p e : Nat} {ts : List Tag} (h : Placed p ts e)
    (hpos : ∀ t ∈ ts, 0 < t.data.len) : p + ts.length ≤ e := by
  induction ts generalizing p with
  | nil => exact h.ge
  | cons t ts ih =>
    have := ih h.2 (fun u hu => hpos u (List.mem_cons_of_mem t hu))
    have := h.1 ▸ le_alignUp p t.type
    have := hpos t (List.mem_cons_self t ts)
    simp only [List.length_cons]
    omega

theorem Header.Sound.count_lt {hdr : Header} (h : hdr.Sound) :
    hdr.tags.length + hdr.regionCount < 2 ^ 32 := by
  have := placed_length_le h.placed (fun t ht => (h.tags_sound t ht).len_pos)
  have := h.data_lt
  omega

/-- `WriteTo` on tags laid out as `Add` lays them out, whatever their values: refused without
tags, and otherwise it writes the image, unless the region's sixteen bytes take `Length` past
`2 ^ 32`, where the data check fails. -/
theorem Header.writeTo_placed {hdr : Header} (hp : Placed 0 hdr.tags hdr.off.toNat) :
    hdr.writeTo = if hdr.tags = [] then .error .noTags
      else if hdr.off.toNat + 16 * hdr.regionCount < 2 ^ 32 then
        .ok (hdr.image, hdr.size % 2 ^ 32, hdr)
      else .error .dataLen := by
  rcases hdr with ⟨off, region, tags⟩
  have hdata := writeData_placed tags 0 _ hp
  have hsorted := sortByOffset_eq_self_of_le (placed_pairwise_le hp)
  have hoff : off.toNat < 4294967296 := uint32_toNat_lt off
  by_cases hne : tags = []
  · simp [Header.writeTo, hne]
  cases region with
  | none =>
    simp [Header.writeTo, hne, Header.setRegionPre, hsorted, hdata, Header.image,
      Header.regionTags, Header.regionCount, uint32_ofNat_toNat, Header.size, hoff]
    omega
  | some id =>
    have hlen : UInt32.ofNat (off.toNat + 16) = off + 16 := UInt32.toNat.inj (by simp)
    have hcount : UInt32.ofNat tags.length + 1 = UInt32.ofNat (tags.length + 1) :=
      UInt32.toNat.inj (by simp)
    simp [Header.writeTo, hne, Header.setRegionPre, hsorted, hdata, Header.image,
      Header.regionTags, Header.regionCount, placedBytes_append hp, hcount, hlen, Header.size,
      UInt32.size]
    split_ifs with h1 h2 h2
    · simp only [Except.ok.injEq, Prod.mk.injEq, true_and, and_true]
      omega
    · omega
    · omega
    · rfl

/-- `WriteTo` accepts a sound header, writes its image, returns the image's length as a
`uint32`, and leaves the header as it was. -/
theorem Header.writeTo_sound {hdr : Header} (h : hdr.Sound) :
    hdr.writeTo = .ok (hdr.image, hdr.size % 2 ^ 32, hdr) := by
  rw [Header.writeTo_placed h.placed, if_neg h.tags_ne, if_pos h.data_lt]

theorem Reader.align_of_mod {r : Reader} (h : r.off % 8 = 0) : r.align = .ok r := by
  have hn : andNot (r.off + 7) 7 = r.off := by rw [andNot_add_seven]; omega
  simp [Reader.align, hn]

theorem Reader.header_writeTo {r : Reader} {pre : HeaderPre} {rest : List UInt8}
    (hrest : r.rest = pre.writeTo ++ rest) :
    r.header = .ok (pre, { rest := rest, off := r.off + 16 }) := by
  have hlen : pre.writeTo.length = 16 := by simp [HeaderPre.writeTo, rpmHeaderMagic]
  simp only [Reader.header, hrest, readFull_append rest hlen]
  simp [HeaderPre.writeTo, HeaderPre.decode, rpmHeaderMagic]

@[simp] theorem Header.length_regionTags (hdr : Header) :
    hdr.regionTags.length = hdr.regionCount := by
  simp [Header.regionTags, Header.regionCount]

theorem Header.regionTag_sound (hdr : Header) (id : UInt32) : (hdr.regionTag id).Sound where
  len_pos := by simp
  nulFree := trivial
  typed := ⟨Or.inl rfl, by simp [Header.regionTag, Header.regionData]⟩

theorem alignUp_zero (type : UInt32) : alignUp 0 (typeAlign type) = 0 := by
  unfold alignUp; rcases typeAlign_cases type with h | h | h | h <;> rw [h]

theorem placed_regionTags {hdr : Header} (hp : Placed 0 hdr.tags hdr.off.toNat) :
    Placed 0 (hdr.tags ++ hdr.regionTags) (hdr.off.toNat + 16 * hdr.regionCount) := by
  cases hreg : hdr.region with
  | none => simpa [Header.regionTags, Header.regionCount, hreg] using hp
  | some id =>
    have hid : (hdr.regionTag id).offset.toNat = alignUp hdr.off.toNat (typeAlign rpmBinType) := by
      simp [alignUp, typeAlign, rpmBinType, rpmInt16Type, rpmInt32Type, rpmInt64Type]
    simpa [Header.regionTags, Header.regionCount, hreg] using placed_append hp hid

theorem Header.Sound.placed_all {hdr : Header} (h : hdr.Sound) :
    Placed 0 (hdr.tags ++ hdr.regionTags) (hdr.off.toNat + 16 * hdr.regionCount) :=
  placed_regionTags h.placed

theorem Header.Sound.sound_all {hdr : Header} (h : hdr.Sound) :
    ∀ t ∈ hdr.tags ++ hdr.regionTags, t.Sound := by
  intro t ht
  rcases List.mem_append.mp ht with ht | ht
  · exact h.tags_sound t ht
  · obtain ⟨id, -, rfl⟩ := List.mem_map.mp ht
    exact hdr.regionTag_sound id

theorem Reader.readTags_placed_zero {e : Nat} (he : e < 2 ^ 32) {ts : List Tag} (hne : ts ≠ [])
    (hplaced : Placed 0 ts e) (hsound : ∀ u ∈ ts, u.Sound) {r : Reader} (hmod : r.off % 8 = 0)
    {tail : List UInt8} (hrest : r.rest = placedBytes 0 ts ++ tail) :
    r.readTags (UInt32.ofNat e) (ts.map (·.toTagHeader)) = .ok (ts, { rest := tail, off := r.off + e }) := by
  obtain ⟨t, ts, rfl⟩ := List.exists_cons_of_ne_nil hne
  have hoff : t.offset.toNat = 0 := hplaced.1.trans (alignUp_zero t.type)
  rw [← hoff] at hplaced hrest
  simpa [hoff] using Reader.readTags_placed he ts t r tail hplaced hsound (by omega) hrest

theorem Reader.tags_writeTo (length : UInt32) :
    ∀ (ts : List Tag) (r : Reader) (rest : List UInt8),
      (∀ t ∈ ts, t.offset.toNat ≤ length.toNat) →
      r.rest = ts.flatMap (·.toTagHeader.writeTo) ++ rest →
      r.tags length ts.length =
        .ok (ts.map (·.toTagHeader), { rest := rest, off := r.off + 16 * ts.length })
  | [], ⟨rest', off⟩, rest, _, hrest => by simp_all [Reader.tags]
  | t :: ts, r, rest, hoff, hrest => by
    have hnext := Reader.tags_writeTo length ts
      (Reader.mk (ts.flatMap (·.toTagHeader.writeTo) ++ rest) (r.off + 16)) rest
      (fun u hu => hoff u (List.mem_cons_of_mem t hu)) rfl
    have hle : ¬ length < t.offset := fun hlt =>
      absurd (hoff t (List.mem_cons_self t ts)) (by rw [uint32_lt_iff] at hlt; omega)
    rw [List.flatMap_cons, List.append_assoc] at hrest
    simp only [List.length_cons, Reader.tags, hrest,
      readFull_append _ (TagHeader.length_writeTo _), TagHeader.decode_writeTo, gt_iff_lt, hle,
      if_false, hnext, ok_bind, pure_eq_ok, List.map_cons]
    congr 3
    omega

/-- `Next` sorts the index of an image into the order of the data: the region's entry, first in
the index, goes last. -/
theorem Header.Sound.sort_index {hdr : Header} (h : hdr.Sound) :
    sortByOffset (·.offset) ((hdr.regionTags ++ hdr.tags).map (·.toTagHeader)) =
      (hdr.tags ++ hdr.regionTags).map (·.toTagHeader) := by
  obtain ⟨hrel, hbound⟩ := placed_pairwise h.placed (fun t ht => (h.tags_sound t ht).len_pos)
  have hrel' : (hdr.tags.map (·.toTagHeader)).Pairwise
      (fun a b => a.offset.toNat < b.offset.toNat) := List.pairwise_map.mpr hrel
  cases hreg : hdr.region with
  | none => simpa [Header.regionTags, hreg] using sortByOffset_eq_self hrel'
  | some id =>
    have hlast : ∀ y ∈ hdr.tags.map (·.toTagHeader), y.offset.toNat < hdr.off.toNat := by
      intro y hy
      obtain ⟨t, ht, rfl⟩ := List.mem_map.mp hy
      have := hbound t ht
      have := (h.tags_sound t ht).len_pos
      omega
    simpa [Header.regionTags, hreg] using
      sortByOffset_cons_last (x := (hdr.regionTag id).toTagHeader) hrel' hlast

/-- The end of `Next` on an image: the region tag, last in offset order, becomes the region
again, and `off` comes back from `Length` or from the region tag's offset. -/
theorem Header.Sound.regionize_eq {hdr : Header} (h : hdr.Sound) :
    regionize (UInt32.ofNat (hdr.off.toNat + 16 * hdr.regionCount)) (hdr.tags ++ hdr.regionTags) =
      hdr := by
  have hplain := h.plain
  have hid := h.region_id
  obtain ⟨off, region, tags⟩ := hdr
  cases region with
  | none =>
    obtain ⟨lt, hlt⟩ := List.getLast?_isSome.mpr h.tags_ne |> Option.isSome_iff_exists.mp
    have hplt := hplain lt (List.mem_of_getLast?_eq_some hlt)
    simp [regionize, Header.regionTags, Header.regionCount, hlt, hplt, uint32_ofNat_toNat]
  | some id =>
    have hr := hid id rfl
    simp [regionize, Header.regionTags, Header.regionCount, hr]

theorem Header.Sound.length_image {hdr : Header} (h : hdr.Sound) : hdr.image.length = hdr.size := by
  have hflat : ∀ ts : List Tag, (ts.flatMap (·.toTagHeader.writeTo)).length = 16 * ts.length := by
    intro ts
    induction ts with
    | nil => rfl
    | cons t ts ih => simp only [List.flatMap_cons, List.length_append, ih]; simp; ring
  simp only [Header.image, Header.size, List.length_append, hflat, length_placedBytes h.placed_all,
    HeaderPre.writeTo, rpmHeaderMagic, length_putUint32, Header.length_regionTags]
  simp
  ring

/-- `Next`, at a multiple of eight, on the image of a sound header followed by anything,
returns the header and stops right after the image. -/
theorem Reader.next_image {hdr : Header} (h : hdr.Sound) {r : Reader} (hoff : r.off % 8 = 0)
    {more : List UInt8} (hrest : r.rest = hdr.image ++ more) :
    r.next = .ok (hdr, { rest := more, off := r.off + hdr.size }) := by
  have hdlt := h.data_lt
  have hclt := h.count_lt
  set e := hdr.off.toNat + 16 * hdr.regionCount with he
  have hlen : (UInt32.ofNat e).toNat = e := by simp; omega
  have hcount : (UInt32.ofNat (hdr.tags.length + hdr.regionCount)).toNat =
      (hdr.regionTags ++ hdr.tags).length := by simp; omega
  have hhead := @Reader.header_writeTo r
    { count := UInt32.ofNat (hdr.tags.length + hdr.regionCount), length := UInt32.ofNat e }
    ((hdr.regionTags ++ hdr.tags).flatMap (·.toTagHeader.writeTo) ++
      (placedBytes 0 (hdr.tags ++ hdr.regionTags) ++ more))
    (by rw [hrest, Header.image]; simp only [List.append_assoc])
  have hbound : ∀ t ∈ hdr.regionTags ++ hdr.tags, t.offset.toNat ≤ (UInt32.ofNat e).toNat := by
    rw [hlen]
    intro t ht
    rcases List.mem_append.mp ht with ht | ht
    · obtain ⟨id, -, rfl⟩ := List.mem_map.mp ht
      simp only [Header.regionTag_offset]; omega
    · have := ((placed_pairwise h.placed (fun t ht => (h.tags_sound t ht).len_pos)).2 t ht).2
      omega
  have htags := Reader.tags_writeTo (UInt32.ofNat e) (hdr.regionTags ++ hdr.tags)
    (Reader.mk ((hdr.regionTags ++ hdr.tags).flatMap (·.toTagHeader.writeTo) ++
      (placedBytes 0 (hdr.tags ++ hdr.regionTags) ++ more)) (r.off + 16))
    (placedBytes 0 (hdr.tags ++ hdr.regionTags) ++ more) hbound rfl
  have hne : (hdr.regionTags ++ hdr.tags).map (·.toTagHeader) ≠ [] := by simp [h.tags_ne]
  have hread := Reader.readTags_placed_zero (by omega) (by simp [h.tags_ne]) h.placed_all
    h.sound_all (r := Reader.mk (placedBytes 0 (hdr.tags ++ hdr.regionTags) ++ more)
      (r.off + 16 + 16 * (hdr.regionTags ++ hdr.tags).length)) (by simp; omega) rfl
  simp only [Reader.next, Reader.align_of_mod hoff, hhead, hcount, htags, hne, h.sort_index,
    hread, h.regionize_eq, ok_bind, pure_eq_ok, if_false]
  simp only [Header.size, List.length_append, Header.length_regionTags]
  congr 3
  omega

end GoRpm
