import GoRpm.Header.RoundTrip

/-!
Headers built by the exported `Add*` API. A call is admissible when its value has a non-zero
encoded length, no string of it holds a NUL byte, and its tag id is not one of the region ids.
A header built from admissible calls, given `SetRegion` of a region id, is sound as long as its
data region stays below `2 ^ 32` bytes, so it survives `WriteTo` and `Next` unchanged.

`WriteTo` itself notices a data region that outgrew `uint32`: once the running offset of `Add`
wraps, some value either straddles `2 ^ 32`, and the data loop then ends past any `Length`, or
lands on offset zero next to the first value, and the data loop refuses the overlap. So every
successful `WriteTo` of such a header is read back by `Next` as the same header.
-/

namespace GoRpm

/-- What the round trip asks of one `Add*` call. -/
structure AddCall.Admissible (c : AddCall) : Prop where
  len_pos : 0 < c.tag.data.len
  nulFree : c.tag.data.NulFree
  plain : isRegionTag c.tag.tag = false

theorem AddCall.Admissible.sound {c : AddCall} (hc : c.Admissible) (hlt : c.tag.data.len < 2 ^ 32) :
    c.tag.Sound := by
  refine ⟨hc.len_pos, hc.nulFree, ?_⟩
  cases c with
  | addString _ _ | addStringI18N _ _ => simp [AddCall.tag, TagData.Typed]
  | addStringArray _ data =>
    have := length_le_len_string data
    simp only [AddCall.tag, TagData.len] at hlt this
    simp [AddCall.tag, TagData.Typed]
    omega
  | addInt16 _ _ | addInt32 _ _ | addInt64 _ _ | addBin _ _ =>
    simp only [AddCall.tag, TagData.len] at hlt
    simp [AddCall.tag, TagData.Typed]
    omega

theorem Tag.Sound.of_offset {t : Tag} {o : UInt32} (h : ({ t with offset := o } : Tag).Sound) :
    t.Sound :=
  ⟨h.len_pos, h.nulFree, h.typed⟩

theorem mem_foldl_run_tags (calls : List AddCall) {hdr : Header} {t : Tag}
    (ht : t ∈ (calls.foldl (fun hdr (c : AddCall) => c.run hdr) hdr).tags) :
    t ∈ hdr.tags ∨ ∃ c ∈ calls, c.tag = { t with offset := 0 } := by
  induction calls generalizing hdr with
  | nil => exact Or.inl ht
  | cons c calls ih =>
    rcases ih ht with ht | ⟨c', hc', he⟩
    · simp only [AddCall.run_eq_add, Header.add, List.mem_append, List.mem_singleton] at ht
      rcases ht with ht | rfl
      · exact Or.inl ht
      · exact Or.inr ⟨c, List.mem_cons_self c calls, by cases c <;> rfl⟩
    · exact Or.inr ⟨c', List.mem_cons_of_mem c hc', he⟩

theorem mem_build_tags {calls : List AddCall} {region : Option UInt32} {t : Tag}
    (ht : t ∈ (Header.build calls region).tags) : ∃ c ∈ calls, c.tag = { t with offset := 0 } := by
  rw [Header.build_tags] at ht
  simpa using mem_foldl_run_tags calls ht

section Build

variable {calls : List AddCall} {region : Option UInt32}

/-- A header built from admissible calls, with a region id if any, is sound while its data
region, the region's value included, stays below `2 ^ 32` bytes. -/
theorem build_sound (hne : calls ≠ []) (hadm : ∀ c ∈ calls, c.Admissible)
    (hreg : ∀ id ∈ region, isRegionTag id = true)
    (hlt : placeEnd 0 (calls.map AddCall.tag) + 16 * region.toList.length < 2 ^ 32) :
    (Header.build calls region).Sound := by
  obtain ⟨hplaced, hoff, htags, hregion⟩ := build_placed calls region (by omega)
  have hpos : ∀ t ∈ (Header.build calls region).tags, 0 < t.data.len := by
    intro t ht
    obtain ⟨c, hc, he⟩ := mem_build_tags ht
    simpa [he] using (hadm c hc).len_pos
  have hend := (placed_pairwise hplaced hpos).2
  refine ⟨?_, hplaced, ?_, ?_, by simpa [hregion] using hreg, ?_⟩
  · intro hnil
    rw [hnil, List.map_nil] at htags
    exact hne (List.map_eq_nil_iff.mp htags.symm)
  · intro t ht
    obtain ⟨c, hc, he⟩ := mem_build_tags ht
    have hlen : c.tag.data.len < 2 ^ 32 := by
      have hd : c.tag.data.len = t.data.len := by rw [he]
      have := hend t ht
      omega
    exact Tag.Sound.of_offset (he ▸ (hadm c hc).sound hlen)
  · intro t ht
    obtain ⟨c, hc, he⟩ := mem_build_tags ht
    simpa [he] using (hadm c hc).plain
  · rw [hoff]
    simpa [Header.regionCount, hregion] using hlt

end Build

theorem Header.pad_ok {off : UInt32} {cur : Nat} {p : List UInt8} (h : Header.pad off cur = .ok p) :
    cur ≤ off.toNat ∧ p.length = off.toNat - cur := by
  unfold Header.pad at h
  split_ifs at h with h1 h2
  cases h
  exact ⟨by omega, length_zeros _⟩

/-- A successful `WriteTo` ran the data loop over the sorted tags and found its end, with the
region's value, equal to `Length`. -/
theorem Header.writeTo_ok {hdr : Header} {out : List UInt8 × Nat × Header}
    (h : hdr.writeTo = .ok out) :
    ∃ d cur, writeData 0 (sortByOffset (·.offset) hdr.tags) = .ok (d, cur) ∧
      cur + 16 * hdr.regionCount = (hdr.off.toNat + 16 * hdr.regionCount) % 2 ^ 32 := by
  unfold Header.writeTo at h
  by_cases hne : hdr.tags = []
  · simp [hne] at h
  simp only [hne, if_false, pure_eq_ok, ok_bind] at h
  obtain ⟨⟨d, cur⟩, hd, h⟩ := bind_eq_ok h
  refine ⟨d, cur, hd, ?_⟩
  split_ifs at h with hlen
  · simp at h
  · have := uint32_toNat_lt hdr.off
    cases hreg : hdr.region <;>
      simp [Header.setRegionPre, hreg, Header.regionCount, UInt32.size] at hlen ⊢ <;> omega

/-- `Add*` calls of any values on a fresh `Header`, zero-length ones included, while their data
stays below `2 ^ 32`: the tags are in offset order from offset 0, each at a multiple of its
alignment, the gap after each tag below the next one's alignment, and `off` where the last value
ends. `WriteTo` then refuses the header only when it has no tags, or when the region's sixteen
bytes take `Length` past `2 ^ 32`; otherwise it writes the image, whose data region, values and
zero padding, is `Length` bytes long. -/
theorem build_layout_writeTo (calls : List AddCall) (region : Option UInt32)
    (hlt : placeEnd 0 (calls.map AddCall.tag) < 2 ^ 32) :
    let hdr := Header.build calls region
    hdr.tags.Pairwise (fun a b => a.offset.toNat ≤ b.offset.toNat) ∧
      (∀ t ∈ hdr.tags, t.offset.toNat % typeAlign t.type = 0) ∧
      (∀ t ∈ hdr.tags.head?, t.offset = 0) ∧
      hdr.tags.Chain' (fun a b => a.offset.toNat + a.data.len ≤ b.offset.toNat ∧
        b.offset.toNat < a.offset.toNat + a.data.len + typeAlign b.type) ∧
      hdr.off.toNat = (hdr.tags.getLast?.map fun t => t.offset.toNat + t.data.len).getD 0 ∧
      (placedBytes 0 (hdr.tags ++ hdr.regionTags)).length =
        hdr.off.toNat + 16 * hdr.regionCount ∧
      hdr.writeTo = if hdr.tags = [] then .error .noTags
        else if hdr.off.toNat + 16 * hdr.regionCount < 2 ^ 32 then
          .ok (hdr.image, hdr.size % 2 ^ 32, hdr)
        else .error .dataLen := by
  intro hdr
  obtain ⟨hp, -, -, -⟩ := build_placed calls region hlt
  refine ⟨placed_pairwise_le hp, placed_aligned hp,
    fun t ht => UInt32.toNat.inj ((placed_head hp t ht).trans (alignUp_zero t.type)),
    placed_chain hp, ?_, ?_, Header.writeTo_placed hp⟩
  · cases hl : hdr.tags.getLast? with
    | none => rw [List.getLast?_eq_none_iff.mp hl] at hp; exact hp
    | some lt => exact (placed_getLast hp hl).symm
  · rw [length_placedBytes (placed_regionTags hp), Nat.sub_zero]

theorem build_layout_writeTo_bin_int32 :
    placeEnd 0 ([AddCall.addBin 1000 [1, 2, 3], .addInt32 1001 [7]].map AddCall.tag) < 2 ^ 32 ∧
      let hdr := Header.build [.addBin 1000 [1, 2, 3], .addInt32 1001 [7]] (some headerImmutable)
      hdr.tags.Pairwise (fun a b => a.offset.toNat ≤ b.offset.toNat) ∧
        (∀ t ∈ hdr.tags, t.offset.toNat % typeAlign t.type = 0) ∧
        (∀ t ∈ hdr.tags.head?, t.offset = 0) ∧
        hdr.tags.Chain' (fun a b => a.offset.toNat + a.data.len ≤ b.offset.toNat ∧
          b.offset.toNat < a.offset.toNat + a.data.len + typeAlign b.type) ∧
        hdr.off.toNat = (hdr.tags.getLast?.map fun t => t.offset.toNat + t.data.len).getD 0 ∧
        (placedBytes 0 (hdr.tags ++ hdr.regionTags)).length =
          hdr.off.toNat + 16 * hdr.regionCount ∧
        hdr.writeTo = if hdr.tags = [] then .error .noTags
          else if hdr.off.toNat + 16 * hdr.regionCount < 2 ^ 32 then
            .ok (hdr.image, hdr.size % 2 ^ 32, hdr)
          else .error .dataLen :=
  ⟨by decide, build_layout_writeTo _ _ (by decide)⟩

theorem placeEnd_addBin (tag : UInt32) (b : List UInt8) :
    placeEnd 0 ([AddCall.addBin tag b].map AddCall.tag) = b.length := by
  simp [placeEnd, AddCall.tag, TagData.len, alignUp_zero]

/-- A header of one `AddBin` value and a region, whose value fits below `2 ^ 32` bytes but not
with the region's sixteen after it: `WriteTo` fails with `errDataLen`. -/
theorem build_addBin_region_writeTo (tag id : UInt32) (b : List UInt8) (hlt : b.length < 2 ^ 32)
    (hwrap : 2 ^ 32 ≤ b.length + 16) :
    (Header.build [.addBin tag b] (some id)).writeTo = .error .dataLen := by
  obtain ⟨hp, hoff, htags, hreg⟩ := build_placed [.addBin tag b] (some id) (by rwa [placeEnd_addBin])
  have hne : (Header.build [.addBin tag b] (some id)).tags ≠ [] := by
    intro h
    rw [h] at htags
    simp at htags
  rw [Header.writeTo_placed hp, if_neg hne, if_neg (by
    rw [hoff, placeEnd_addBin, Header.regionCount, hreg]; simpa using hwrap)]

/-- One `AddBin` value of `2 ^ 32 - 8` bytes, then `SetRegion`: the data stays below `2 ^ 32`,
but `Length` with the region's sixteen bytes wraps to 8, and `WriteTo` fails with
`errDataLen`. -/
theorem writeTo_region_length_wraps :
    placeEnd 0 ([AddCall.addBin 1000 (zeros (2 ^ 32 - 8))].map AddCall.tag) < 2 ^ 32 ∧
      (Header.build [.addBin 1000 (zeros (2 ^ 32 - 8))] (some headerImmutable)).writeTo =
        .error .dataLen :=
  ⟨by rw [placeEnd_addBin, length_zeros]; norm_num,
    build_addBin_region_writeTo _ _ _ (by rw [length_zeros]; norm_num)
      (by rw [length_zeros]; norm_num)⟩

end GoRpm
