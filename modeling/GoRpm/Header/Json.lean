import GoRpm.Package
import GoRpm.Header.Accepted

/-!
The JSON form of tags and headers (`Tag.MarshalJSON`, `Tag.UnmarshalJSON`,
`Header.MarshalJSON`, `Header.UnmarshalJSON`), at the level of the values `encoding/json`
writes and reads back. A number and the base64 text of a byte slice are read back exactly, so
they are carried as they are. A string is not: `json.Marshal` writes each byte that starts no
valid UTF-8 sequence as `�`, and that is what the decoder returns.

Decoding sorts the tags by offset; a region tag that comes last becomes the region again, with
`off` at its offset, and otherwise `off` is put after the last value. So the cycle gives back
every header built by admissible `Add*` calls and, when `WriteTo` accepts it, every header `Next`
returns, as long as their strings are valid UTF-8; a string that is not comes back changed.
-/

namespace GoRpm

/-- The lead-byte tables of `utf8.DecodeRune` (`first` and `acceptRanges`): the length of the
sequence a byte starts and the range its second byte must fall in; `none` for a byte that
starts no sequence. -/
def runeShape (b : UInt8) : Option (Nat × UInt8 × UInt8) :=
  if b < 0x80 then some (1, 0x80, 0xBF)
  else if b < 0xC2 then none
  else if b < 0xE0 then some (2, 0x80, 0xBF)
  else if b = 0xE0 then some (3, 0xA0, 0xBF)
  else if b < 0xED then some (3, 0x80, 0xBF)
  else if b = 0xED then some (3, 0x80, 0x9F)
  else if b < 0xF0 then some (3, 0x80, 0xBF)
  else if b = 0xF0 then some (4, 0x90, 0xBF)
  else if b < 0xF4 then some (4, 0x80, 0xBF)
  else if b = 0xF4 then some (4, 0x80, 0x8F)
  else none

/-- The size `utf8.DecodeRune` returns for the rune at the start of `s`; `none` where it returns
`(RuneError, 1)`: a byte that starts no sequence, a sequence cut short, or a continuation byte
out of its range. -/
def runeSize : List UInt8 → Option Nat
  | [] => none
  | b :: rest =>
    match runeShape b, rest with
    | none, _ => none
    | some (1, _, _), _ => some 1
    | some _, [] => none
    | some (n, lo, hi), c :: more =>
      if lo ≤ c ∧ c ≤ hi ∧ n - 2 ≤ more.length ∧
          (more.take (n - 2)).all fun d => 0x80 ≤ d && d ≤ 0xBF then some n
      else none

/-- `utf8.Valid`, with one unit of fuel per rune. -/
def utf8ValidAux : Nat → List UInt8 → Bool
  | _, [] => true
  | 0, _ :: _ => false
  | fuel + 1, b :: rest =>
    match runeSize (b :: rest) with
    | some n => utf8ValidAux fuel ((b :: rest).drop n)
    | none => false

/-- `utf8.Valid`: every rune decodes with its own size. Every rune is at least one byte, so the
length is fuel enough. -/
def utf8Valid (s : List UInt8) : Bool := utf8ValidAux s.length s

/-- `"�"`: U+FFFD in UTF-8. -/
def runeErrorBytes : List UInt8 := [0xEF, 0xBF, 0xBD]

/-- `encodeState.string`, as the decoder reads it back: every valid rune is kept, and a byte
that starts none becomes U+FFFD. The escapes the encoder writes (quotes, control bytes, `<`, `>`,
`&`, U+2028, U+2029) decode to the bytes they escape and are not modelled. -/
def jsonStringAux : Nat → List UInt8 → List UInt8
  | _, [] => []
  | 0, s => s
  | fuel + 1, b :: rest =>
    match runeSize (b :: rest) with
    | some n => (b :: rest).take n ++ jsonStringAux fuel ((b :: rest).drop n)
    | none => runeErrorBytes ++ jsonStringAux fuel rest

/-- A Go string through `json.Marshal` and `json.Unmarshal`. -/
def jsonString (s : List UInt8) : List UInt8 := jsonStringAux s.length s

theorem jsonStringAux_of_valid : ∀ (fuel : Nat) (s : List UInt8),
    utf8ValidAux fuel s = true → jsonStringAux fuel s = s
  | 0, [], _ | _ + 1, [], _ => rfl
  | 0, _ :: _, h => by simp [utf8ValidAux] at h
  | fuel + 1, b :: rest, h => by
    simp only [utf8ValidAux] at h
    split at h
    · rename_i n hn
      simp only [jsonStringAux, hn, jsonStringAux_of_valid fuel _ h, List.take_append_drop]
    · cases h

theorem jsonString_of_valid {s : List UInt8} (h : utf8Valid s = true) : jsonString s = s :=
  jsonStringAux_of_valid _ _ h

example : jsonString [0x61, 0xE2, 0x82, 0xAC] = [0x61, 0xE2, 0x82, 0xAC] := by decide

example : jsonString [0xFF, 0x61, 0xE2, 0x82] =
    runeErrorBytes ++ [0x61] ++ runeErrorBytes ++ runeErrorBytes := by decide

/-- Every string of a value passes `utf8.ValidString`. -/
def TagData.validUtf8 : TagData → Bool
  | .string data => data.all utf8Valid
  | _ => true

/-- The JSON value of a tag's `Data`, as `json.Unmarshal` reads it: an array of strings, an
array of numbers, or a string holding the base64 text of a byte slice. A nil slice, written
`null`, is the empty list: the decoder reads `null` and `[]` into slices of length zero alike. -/
inductive JsonData where
  | strings (xs : List (List UInt8))
  | numbers (ns : List Nat)
  | base64 (b : List UInt8)
  deriving DecidableEq, Repr

/-- A tag in JSON, the `jsonTag` of `UnmarshalJSON`: the four fields of `tagHeader`, then
`Data`. -/
structure JsonTag where
  header : TagHeader
  data : JsonData
  deriving DecidableEq, Repr

/-- `marshal(ok, v)`: `errTagType` when the accessor's type assertion failed. -/
def marshal {α : Type} (r : Option α) (v : α → JsonData) : Except RpmError JsonData :=
  match r with
  | some r => .ok (v r)
  | none => .error .tagType

/-- `Tag.MarshalJSON`: the index entry, then `Data` from the accessor the type code picks. A
string type whose value is not a `*tagString` panics in `StringArray`; any other mismatch is
`errTagType`. -/
def Tag.marshalJSON (t : Tag) : Except RpmError JsonTag := do
  let data ←
    if t.type = rpmStringType ∨ t.type = rpmI18nstringType ∨ t.type = rpmStringArrayType then
      (fun r => JsonData.strings (r.map jsonString)) <$> t.stringArray
    else if t.type = rpmInt16Type then marshal t.int16 fun r => .numbers (r.map UInt16.toNat)
    else if t.type = rpmInt32Type then marshal t.int32 fun r => .numbers (r.map UInt32.toNat)
    else if t.type = rpmInt64Type then marshal t.int64 fun r => .numbers (r.map UInt64.toNat)
    else marshal t.bytes .base64
  return ⟨t.toTagHeader, data⟩

/-- `json.Unmarshal` into a `[]string`. -/
def JsonData.decodeStrings : JsonData → Except RpmError (List (List UInt8))
  | .strings xs => .ok xs
  | _ => .error .unmarshalType

/-- `json.Unmarshal` into a slice of an unsigned type with `size` values: an array of numbers,
each in range. -/
def JsonData.decodeNumbers {α : Type} (size : Nat) (ofNat : Nat → α) :
    JsonData → Except RpmError (List α)
  | .numbers ns => if ns.all (· < size) then .ok (ns.map ofNat) else .error .unmarshalType
  | _ => .error .unmarshalType

/-- `json.Unmarshal` into a `[]byte`: base64 text, or an array of numbers read as bytes. -/
def JsonData.decodeBytes : JsonData → Except RpmError (List UInt8)
  | .base64 b => .ok b
  | d => d.decodeNumbers UInt8.size UInt8.ofNat

/-- `Tag.UnmarshalJSON`: the index entry, then `Data` decoded into the container the type code
picks. -/
def Tag.unmarshalJSON (j : JsonTag) : Except RpmError Tag := do
  let t := j.header
  let data ←
    if t.type = rpmStringType ∨ t.type = rpmI18nstringType ∨ t.type = rpmStringArrayType then
      TagData.string <$> j.data.decodeStrings
    else if t.type = rpmInt16Type then
      TagData.uint16 <$> j.data.decodeNumbers UInt16.size UInt16.ofNat
    else if t.type = rpmInt32Type then
      TagData.uint32 <$> j.data.decodeNumbers UInt32.size UInt32.ofNat
    else if t.type = rpmInt64Type then
      TagData.uint64 <$> j.data.decodeNumbers UInt64.size UInt64.ofNat
    else TagData.bytes <$> j.data.decodeBytes
  return { toTagHeader := t, data := data }

theorem JsonData.decodeNumbers_map {α : Type} {size : Nat} {ofNat : Nat → α} {toNat : α → Nat}
    (hlt : ∀ x, toNat x < size) (hinv : ∀ x, ofNat (toNat x) = x) (xs : List α) :
    (JsonData.numbers (xs.map toNat)).decodeNumbers size ofNat = .ok xs := by
  simp [decodeNumbers, hlt, hinv, Function.comp_def]

/-- A tag whose value has its type's shape, with valid UTF-8 strings, comes back from JSON. -/
theorem Tag.unmarshalJSON_marshalJSON {t : Tag} (hs : t.data.Shaped t.type)
    (hu : t.data.validUtf8 = true) : ∃ j, t.marshalJSON = .ok j ∧ Tag.unmarshalJSON j = .ok t := by
  obtain ⟨⟨tag, type, offset, count⟩, d⟩ := t
  cases d with
  | bytes b => rcases hs with rfl | rfl | rfl <;> exact ⟨_, rfl, rfl⟩
  | string data =>
    have hdata : data.map jsonString = data := by
      rw [List.map_congr_left fun s hs => jsonString_of_valid (List.all_eq_true.mp hu s hs),
        List.map_id']
    rcases hs with rfl | rfl | rfl <;> exact ⟨_, rfl, by (conv_rhs => rw [← hdata]); rfl⟩
  | uint16 xs =>
    obtain rfl := hs
    exact ⟨_, rfl, by simp [Tag.unmarshalJSON, rpmStringType, rpmI18nstringType, rpmStringArrayType,
      rpmInt16Type, rpmInt32Type, rpmInt64Type, JsonData.decodeNumbers_map
      UInt16.toNat_lt_size fun x => UInt16.toNat.inj (UInt16.toNat_ofNat_of_lt x.toNat_lt_size)]⟩
  | uint32 xs =>
    obtain rfl := hs
    exact ⟨_, rfl, by simp [Tag.unmarshalJSON, rpmStringType, rpmI18nstringType, rpmStringArrayType,
      rpmInt16Type, rpmInt32Type, rpmInt64Type, JsonData.decodeNumbers_map
      UInt32.toNat_lt_size fun x => UInt32.toNat.inj (UInt32.toNat_ofNat_of_lt x.toNat_lt_size)]⟩
  | uint64 xs =>
    obtain rfl := hs
    exact ⟨_, rfl, by simp [Tag.unmarshalJSON, rpmStringType, rpmI18nstringType, rpmStringArrayType,
      rpmInt16Type, rpmInt32Type, rpmInt64Type, JsonData.decodeNumbers_map
      UInt64.toNat_lt_size fun x => UInt64.toNat.inj (UInt64.toNat_ofNat_of_lt x.toNat_lt_size)]⟩

/-- `Header.MarshalJSON`: `setRegion`, then the region's tag, when there is a region, and the
tags in their order. -/
def Header.marshalJSON (hdr : Header) : Except RpmError (List JsonTag) :=
  (hdr.regionTags ++ hdr.tags).mapM Tag.marshalJSON

/-- The end of `Header.UnmarshalJSON` on a fresh `Header`, once the tags are decoded: without
tags it stays empty; otherwise the tags are sorted by offset, a region tag that comes last is
taken out and becomes the region, with `off` at its offset, and otherwise `off` is put after the
last value, in `uint32` arithmetic. -/
def Header.ofJsonTags (tags : List Tag) : Header :=
  let tags := sortByOffset (·.offset) tags
  match tags.getLast? with
  | none => {}
  | some lt =>
    if isRegionTag lt.tag then { off := lt.offset, region := some lt.tag, tags := tags.dropLast }
    else { off := lt.offset + UInt32.ofNat lt.data.len, tags := tags }

/-- `Header.UnmarshalJSON` into a fresh `Header`. -/
def Header.unmarshalJSON (js : List JsonTag) : Except RpmError Header :=
  Header.ofJsonTags <$> js.mapM Tag.unmarshalJSON

/-- `json.Unmarshal` of `Header.MarshalJSON(hdr)` into a fresh `Header`. -/
def Header.jsonRoundTrip (hdr : Header) : Except RpmError Header :=
  hdr.marshalJSON >>= Header.unmarshalJSON

/-- Where `UnmarshalJSON` puts `off` when no region tag comes last. -/
def lastEnd (tags : List Tag) : UInt32 :=
  match tags.getLast? with
  | some lt => lt.offset + UInt32.ofNat lt.data.len
  | none => 0

theorem lastEnd_eq {tags : List Tag} {lt : Tag} (hlt : tags.getLast? = some lt) {off : UInt32}
    (hend : lt.offset.toNat + lt.data.len = off.toNat) : lastEnd tags = off := by
  apply UInt32.toNat.inj
  simp only [lastEnd, hlt, toNat_uint32_add, toNat_uint32_ofNat, Nat.add_mod_mod, hend]
  exact Nat.mod_eq_of_lt (uint32_toNat_lt off)

theorem Header.ofJsonTags_plain {tags : List Tag}
    (hsorted : tags.Pairwise (fun a b => a.offset.toNat < b.offset.toNat))
    (hlast : ∀ lt ∈ tags.getLast?, isRegionTag lt.tag = false) :
    Header.ofJsonTags tags = { off := lastEnd tags, tags := tags } := by
  simp only [Header.ofJsonTags, sortByOffset_eq_self hsorted, lastEnd]
  cases h : tags.getLast? with
  | none => rw [List.getLast?_eq_none_iff.mp h]
  | some lt => simp [hlast lt h]

theorem Header.ofJsonTags_region {rt : Tag} {tags : List Tag}
    (hsorted : tags.Pairwise (fun a b => a.offset.toNat < b.offset.toNat))
    (hbelow : ∀ t ∈ tags, t.offset.toNat < rt.offset.toNat) (hreg : isRegionTag rt.tag = true) :
    Header.ofJsonTags (rt :: tags) = { off := rt.offset, region := some rt.tag, tags := tags } := by
  simp [Header.ofJsonTags, sortByOffset_cons_last hsorted hbelow, List.getLast?_concat, hreg]

/-- What the JSON cycle needs of a header: tags in strictly increasing offset order, all below
`off` when there is a region, each with a value of its type's shape and with valid UTF-8 strings,
a region id that `UnmarshalJSON` recognises, and, without a region, no region id on the last
tag. -/
structure Header.JsonReady (hdr : Header) : Prop where
  sorted : hdr.tags.Pairwise (fun a b => a.offset.toNat < b.offset.toNat)
  shaped : ∀ t ∈ hdr.tags, t.data.Shaped t.type
  utf8 : ∀ t ∈ hdr.tags, t.data.validUtf8 = true
  below : ∀ _ ∈ hdr.region, ∀ t ∈ hdr.tags, t.offset.toNat < hdr.off.toNat
  region_id : ∀ id ∈ hdr.region, isRegionTag id = true
  last_plain : hdr.region = none → ∀ lt ∈ hdr.tags.getLast?, isRegionTag lt.tag = false

theorem mapM_round_trip {α β ε : Type} {f : α → Except ε β} {g : β → Except ε α} :
    ∀ {xs : List α}, (∀ x ∈ xs, ∃ y, f x = .ok y ∧ g y = .ok x) →
      ∃ ys, xs.mapM f = .ok ys ∧ ys.mapM g = .ok xs
  | [], _ => ⟨[], rfl, rfl⟩
  | x :: xs, h => by
    obtain ⟨y, hf, hg⟩ := h x (List.mem_cons_self x xs)
    obtain ⟨ys, hfs, hgs⟩ := mapM_round_trip fun z hz => h z (List.mem_cons_of_mem x hz)
    exact ⟨y :: ys, by rw [List.mapM_cons, hf, hfs]; rfl, by rw [List.mapM_cons, hg, hgs]; rfl⟩

theorem Header.JsonReady.marshalJSON {hdr : Header} (h : hdr.JsonReady) :
    ∃ js, hdr.marshalJSON = .ok js ∧ js.mapM Tag.unmarshalJSON = .ok (hdr.regionTags ++ hdr.tags) := by
  refine mapM_round_trip fun t ht => ?_
  rcases List.mem_append.mp ht with ht | ht
  · obtain ⟨id, -, rfl⟩ := List.mem_map.mp ht
    exact Tag.unmarshalJSON_marshalJSON (Or.inl rfl) rfl
  · exact Tag.unmarshalJSON_marshalJSON (h.shaped t ht) (h.utf8 t ht)

/-- The JSON cycle gives a ready header back; without a region, with `off` where its last value
ends. -/
theorem Header.JsonReady.jsonRoundTrip_eq {hdr : Header} (h : hdr.JsonReady) :
    hdr.jsonRoundTrip = .ok (match hdr.region with
      | none => { hdr with off := lastEnd hdr.tags }
      | some _ => hdr) := by
  obtain ⟨js, hm, hu⟩ := h.marshalJSON
  rw [Header.jsonRoundTrip, hm, ok_bind, Header.unmarshalJSON, hu, map_ok]
  obtain ⟨off, _ | id, tags⟩ := hdr
  · exact congrArg Except.ok (Header.ofJsonTags_plain h.sorted (h.last_plain rfl))
  · exact congrArg Except.ok
      (Header.ofJsonTags_region h.sorted (h.below id rfl) (h.region_id id rfl))

/-- A sound header (one built by admissible calls) with valid UTF-8 strings is ready for JSON,
and its `off` is where its last value ends. -/
theorem Header.Sound.jsonReady {hdr : Header} (hs : hdr.Sound)
    (hutf : ∀ t ∈ hdr.tags, t.data.validUtf8 = true) : hdr.JsonReady ∧ lastEnd hdr.tags = hdr.off := by
  have hpos : ∀ t ∈ hdr.tags, 0 < t.data.len := fun t ht => (hs.tags_sound t ht).len_pos
  obtain ⟨hsorted, hbound⟩ := placed_pairwise hs.placed hpos
  obtain ⟨lt, hlt⟩ : ∃ lt, hdr.tags.getLast? = some lt :=
    Option.ne_none_iff_exists'.mp (mt List.getLast?_eq_none_iff.mp hs.tags_ne)
  refine ⟨⟨hsorted, fun t ht => (hs.tags_sound t ht).typed.shaped, hutf, ?_, hs.region_id,
    fun _ lt hlt => hs.plain lt (List.mem_of_getLast?_eq_some hlt)⟩,
    lastEnd_eq hlt (placed_getLast hs.placed hlt)⟩
  intro _ _ t ht
  have := (hbound t ht).2
  have := hpos t ht
  omega

/-- What `regionize` makes of tags in strictly increasing offset order, each of its type's
shape, is ready for JSON once its strings are valid UTF-8. -/
theorem regionize_jsonReady {length : UInt32} {tags : List Tag}
    (hsorted : tags.Pairwise (fun a b => a.offset.toNat < b.offset.toNat))
    (hshaped : ∀ t ∈ tags, t.data.Shaped t.type)
    (hutf : ∀ t ∈ (regionize length tags).tags, t.data.validUtf8 = true) :
    (regionize length tags).JsonReady := by
  cases hlast : tags.getLast? with
  | none =>
    obtain rfl := List.getLast?_eq_none_iff.mp hlast
    exact ⟨List.Pairwise.nil, by simp [regionize], hutf, by simp [regionize],
      by simp [regionize], fun _ => by simp [regionize]⟩
  | some lt =>
    obtain ⟨ys, rfl⟩ := List.getLast?_eq_some_iff.mp hlast
    obtain ⟨hys, -, hlt⟩ := List.pairwise_append.mp hsorted
    by_cases hreg : isRegionTag lt.tag = true
    · have heq : regionize length (ys ++ [lt]) =
          { off := lt.offset, region := some lt.tag, tags := ys } := by
        simp [regionize, hreg]
      rw [heq] at hutf ⊢
      exact ⟨hys, fun t ht => hshaped t (List.mem_append_left _ ht), hutf,
        fun _ _ t ht => hlt t ht lt (List.mem_singleton_self lt), by simpa using hreg,
        fun h => by cases h⟩
    · have heq : regionize length (ys ++ [lt]) = { off := length, tags := ys ++ [lt] } := by
        simp [regionize, hreg]
      rw [heq] at hutf ⊢
      exact ⟨hsorted, hshaped, hutf, fun _ h => (by cases h), fun _ h => (by cases h),
        fun _ => by simpa using hreg⟩

/-- What `Next` returns is ready for JSON once its strings are valid UTF-8. -/
theorem Reader.next_jsonReady {r r' : Reader} {hdr : Header} (h : r.next = .ok (hdr, r'))
    (hutf : ∀ t ∈ hdr.tags, t.data.validUtf8 = true) : hdr.JsonReady := by
  obtain ⟨r1, -, hA⟩ := bind_eq_ok h
  obtain ⟨⟨pre, r2⟩, -, hB⟩ := bind_eq_ok hA
  obtain ⟨⟨ths, r3⟩, -, hC⟩ := bind_eq_ok hB
  simp only [] at hC
  by_cases hnil : ths = []
  · rw [if_pos hnil] at hC
    cases hC
    exact ⟨List.Pairwise.nil, by simp, by simp, by simp, by simp, by simp⟩
  · rw [if_neg hnil] at hC
    simp only [pure_eq_ok, ok_bind] at hC
    obtain ⟨⟨tags, r4⟩, h4, hD⟩ := bind_eq_ok hC
    cases hD
    cases hsort : sortByOffset (·.offset) ths with
    | nil =>
      rw [hsort] at h4
      cases h4
      exact regionize_jsonReady List.Pairwise.nil (by simp) hutf
    | cons v vs =>
      rw [hsort] at h4
      obtain ⟨-, -, -, -, hchain, hshaped⟩ := Reader.readTags_ok vs v _ h4
      have : IsTrans Tag fun a b => a.offset.toNat < b.offset.toNat := ⟨fun _ _ _ => Nat.lt_trans⟩
      exact regionize_jsonReady (List.chain'_iff_pairwise.mp hchain) hshaped hutf

theorem writeData_getLast {lt : Tag} : ∀ {cur : Nat} {ts : List Tag} {d : List UInt8} {e : Nat},
    writeData cur ts = .ok (d, e) → ts.getLast? = some lt → lt.offset.toNat + lt.data.len = e
  | _, [], _, _, _, hlt => by cases hlt
  | _, [_], _, _, h, hlt => by
    simp only [List.getLast?_singleton, Option.some.injEq] at hlt
    subst hlt
    obtain ⟨p, hp, h⟩ := bind_eq_ok h
    obtain ⟨⟨rest, e'⟩, hrest, h⟩ := bind_eq_ok h
    cases h
    cases hrest
    have := Header.pad_ok hp
    simp only [TagData.length_writeTo]
    omega
  | _, _ :: _ :: _, _, _, h, hlt => by
    obtain ⟨p, -, h⟩ := bind_eq_ok h
    obtain ⟨⟨rest, e'⟩, hrest, h⟩ := bind_eq_ok h
    cases h
    exact writeData_getLast hrest (by rwa [List.getLast?_cons_cons] at hlt)

/-- When `WriteTo` accepts a header without a region, whose tags are in offset order, its `off`
is where its last value ends. -/
theorem lastEnd_of_writeTo {hdr : Header} (hreg : hdr.region = none)
    (hsorted : hdr.tags.Pairwise (fun a b => a.offset.toNat < b.offset.toNat))
    {out : List UInt8 × Nat × Header} (hw : hdr.writeTo = .ok out) : lastEnd hdr.tags = hdr.off := by
  obtain ⟨d, cur, hd, hcur⟩ := Header.writeTo_ok hw
  rw [sortByOffset_eq_self hsorted] at hd
  simp only [Header.regionCount, hreg, Option.toList_none, List.length_nil, Nat.mul_zero,
    Nat.add_zero] at hcur
  cases hlt : hdr.tags.getLast? with
  | none => exact absurd hw (by simp [Header.writeTo, List.getLast?_eq_none_iff.mp hlt])
  | some lt =>
    refine lastEnd_eq hlt ?_
    rw [writeData_getLast hd hlt, hcur]
    exact Nat.mod_eq_of_lt (uint32_toNat_lt _)

/-- The JSON cycle on a header built by admissible `Add*` calls, or returned by `Next`, whose
strings are valid UTF-8: decoding into a fresh `Header` gives back its tags, in offset order, and
its region id; and, whenever `WriteTo` accepts the header, the header itself, so that `WriteTo`
writes the same bytes from both. -/
theorem jsonRoundTrip_of_built_or_read (hdr : Header)
    (hutf : ∀ t ∈ hdr.tags, t.data.validUtf8 = true)
    (hsrc : (∃ x : HeaderCalls, x.Admissible ∧ x.build = hdr) ∨
      ∃ r r' : Reader, r.next = .ok (hdr, r')) :
    ∃ hdr', hdr.jsonRoundTrip = .ok hdr' ∧ hdr'.tags = hdr.tags ∧ hdr'.region = hdr.region ∧
      hdr'.tags.Pairwise (fun a b => a.offset.toNat < b.offset.toNat) ∧
      ∀ out, hdr.writeTo = .ok out → hdr' = hdr := by
  have hready : hdr.JsonReady := by
    rcases hsrc with ⟨x, hx, rfl⟩ | ⟨r, r', hnext⟩
    · exact (hx.sound.jsonReady hutf).1
    · exact Reader.next_jsonReady hnext hutf
  refine ⟨_, hready.jsonRoundTrip_eq, ?_⟩
  obtain ⟨off, _ | id, tags⟩ := hdr
  · exact ⟨rfl, rfl, hready.sorted, fun _ hw => by rw [lastEnd_of_writeTo rfl hready.sorted hw]⟩
  · exact ⟨rfl, rfl, hready.sorted, fun _ _ => rfl⟩

theorem jsonRoundTrip_of_built_or_read_name :
    let hdr := (HeaderCalls.mk [.addString 1000 [97]] (some headerImmutable)).build
    ∃ hdr', hdr.jsonRoundTrip = .ok hdr' ∧ hdr'.tags = hdr.tags ∧ hdr'.region = hdr.region ∧
      hdr'.tags.Pairwise (fun a b => a.offset.toNat < b.offset.toNat) ∧
      ∀ out, hdr.writeTo = .ok out → hdr' = hdr :=
  jsonRoundTrip_of_built_or_read _ (by decide) (.inl ⟨_, ⟨by simp, by
    intro c hc
    rw [List.mem_singleton.mp hc]
    exact ⟨by decide, fun s hs => by simp at hs; subst hs; decide, by decide⟩,
    by intro id hid; cases hid; decide, by decide⟩, rfl⟩)

/-- `AddString` of the byte 0xFF, which starts no UTF-8 sequence: the call is admissible,
`WriteTo` accepts the header and `Next` reads it back, but the JSON cycle gives back U+FFFD,
three bytes long, with `off` two bytes further on. -/
theorem jsonRoundTrip_replaces_invalid_utf8 :
    let x := HeaderCalls.mk [.addString 1000 [0xFF]] none
    x.Admissible ∧ (∃ out, x.build.writeTo = .ok out) ∧
      (∃ r', (Reader.ofBytes x.build.image).next = .ok (x.build, r')) ∧
      x.build = { off := 2, tags := [{ tag := 1000, type := rpmStringType, offset := 0,
                                       count := 1, data := .string [[0xFF]] }] } ∧
      x.build.jsonRoundTrip =
        .ok { off := 4, tags := [{ tag := 1000, type := rpmStringType, offset := 0, count := 1,
                                   data := .string [runeErrorBytes] }] } :=
  ⟨⟨by simp, by
    intro c hc
    rw [List.mem_singleton.mp hc]
    exact ⟨by decide, fun s hs => by simp at hs; subst hs; decide, by decide⟩,
    fun _ h => (by cases h), by decide⟩, ⟨_, rfl⟩, ⟨_, rfl⟩, rfl, rfl⟩

end GoRpm
