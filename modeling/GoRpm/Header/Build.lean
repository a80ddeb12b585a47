import GoRpm.Tag

/-!
Building a header in memory: `Add` places each value at the running offset `off`, first
rounded up to the value's alignment, and the `Add*` helpers wrap their argument in a tag of
the matching type. `SetRegion` only records the region's id; the region tag itself, with its
16-byte back-pointer, is made at write time by `setRegion`, so it is computed here from the id.

`Placed` is the layout `Add` is meant to produce, on natural numbers; `build_placed` shows the
`uint32` arithmetic of `Add` produces exactly it as long as the data region stays below
`2 ^ 32` bytes.
-/

namespace GoRpm

/-- `Header`: the running data offset, the id given to `SetRegion`, and the tags in the order
they were added. The preamble fields a parsed header also carries are read by no modelled
function and are left out. -/
structure Header where
  off : UInt32 := 0
  region : Option UInt32 := none
  tags : List Tag := []
  deriving DecidableEq, Repr

/-- `Header.align`: `(hdr.off + n) &^ n` on `uint32`. -/
def Header.align (hdr : Header) (n : UInt32) : UInt32 := (hdr.off + n) &&& ~~~n

/-- The `switch tag.Type` of `Add`: the offset a value of the given type gets. -/
def Header.alignFor (hdr : Header) (type : UInt32) : UInt32 :=
  if type = rpmInt16Type then hdr.align 1
  else if type = rpmInt32Type then hdr.align 3
  else if type = rpmInt64Type then hdr.align 7
  else hdr.off

/-- `Header.Add`: align for the integer types, record the offset, advance past the value. The
returned error is always nil and is left out. -/
def Header.add (hdr : Header) (tag : Tag) : Header :=
  let off := hdr.alignFor tag.type
  { hdr with
    off := off + UInt32.ofNat tag.data.len
    tags := hdr.tags ++ [{ tag with offset := off }] }

/-- The unexported `addString(tag, t, data)`: one string of type `t`. -/
def Header.addTypedString (hdr : Header) (tag t : UInt32) (data : List UInt8) : Header :=
  hdr.add { tag := tag, type := t, offset := 0, count := 1, data := .string [data] }

def Header.addString (hdr : Header) (tag : UInt32) (data : List UInt8) : Header :=
  hdr.addTypedString tag rpmStringType data

def Header.addStringI18N (hdr : Header) (tag : UInt32) (data : List UInt8) : Header :=
  hdr.addTypedString tag rpmI18nstringType data

def Header.addStringArray (hdr : Header) (tag : UInt32) (data : List (List UInt8)) : Header :=
  hdr.add { tag := tag, type := rpmStringArrayType, offset := 0,
            count := UInt32.ofNat data.length, data := .string data }

def Header.addInt16 (hdr : Header) (tag : UInt32) (data : List UInt16) : Header :=
  hdr.add { tag := tag, type := rpmInt16Type, offset := 0,
            count := UInt32.ofNat data.length, data := .uint16 data }

def Header.addInt32 (hdr : Header) (tag : UInt32) (data : List UInt32) : Header :=
  hdr.add { tag := tag, type := rpmInt32Type, offset := 0,
            count := UInt32.ofNat data.length, data := .uint32 data }

def Header.addInt64 (hdr : Header) (tag : UInt32) (data : List UInt64) : Header :=
  hdr.add { tag := tag, type := rpmInt64Type, offset := 0,
            count := UInt32.ofNat data.length, data := .uint64 data }

def Header.addBin (hdr : Header) (tag : UInt32) (data : List UInt8) : Header :=
  hdr.add { tag := tag, type := rpmBinType, offset := 0,
            count := UInt32.ofNat data.length, data := .bytes data }

/-- `Header.SetRegion`. -/
def Header.setRegion (hdr : Header) (tag : UInt32) : Header := { hdr with region := some tag }

/-- The count and length words of `rpmHeaderPre`; its magic is a constant. -/
structure HeaderPre where
  count : UInt32
  length : UInt32
  deriving DecidableEq, Repr

/-- The region's 16-byte value: a tag header whose offset, `uint32(-int32(len(hdr.Tags)+1) *
tagSize)`, points back over the whole index. -/
def Header.regionData (hdr : Header) (tag : UInt32) : List UInt8 :=
  TagHeader.writeTo { tag := tag, type := rpmBinType,
                      offset := (0 - UInt32.ofNat (hdr.tags.length + 1)) * 16, count := 16 }

/-- The region tag `setRegion` makes: a 16-byte `BIN` value at the current offset. -/
def Header.regionTag (hdr : Header) (tag : UInt32) : Tag :=
  { tag := tag, type := rpmBinType, offset := hdr.off, count := 16,
    data := .bytes (hdr.regionData tag) }

@[simp] theorem Header.regionTag_tag (hdr : Header) (tag : UInt32) :
    (hdr.regionTag tag).tag = tag := rfl

@[simp] theorem Header.regionTag_offset (hdr : Header) (tag : UInt32) :
    (hdr.regionTag tag).offset = hdr.off := rfl

@[simp] theorem Header.regionTag_len (hdr : Header) (tag : UInt32) :
    (hdr.regionTag tag).data.len = 16 := by
  simp [Header.regionTag, Header.regionData, TagData.len]

/-- The unexported `setRegion(pre)`: with a region, one more tag and 16 more data bytes, and
the region tag made. -/
def Header.setRegionPre (hdr : Header) (pre : HeaderPre) : HeaderPre × Option Tag :=
  match hdr.region with
  | none => (pre, none)
  | some tag => ({ count := pre.count + 1, length := pre.length + 16 }, some (hdr.regionTag tag))

/-- One call of the exported `Add*` API, with its arguments. -/
inductive AddCall where
  | addString (tag : UInt32) (data : List UInt8)
  | addStringI18N (tag : UInt32) (data : List UInt8)
  | addStringArray (tag : UInt32) (data : List (List UInt8))
  | addInt16 (tag : UInt32) (data : List UInt16)
  | addInt32 (tag : UInt32) (data : List UInt32)
  | addInt64 (tag : UInt32) (data : List UInt64)
  | addBin (tag : UInt32) (data : List UInt8)
  deriving DecidableEq, Repr

def AddCall.run : AddCall → Header → Header
  | .addString tag data, hdr => hdr.addString tag data
  | .addStringI18N tag data, hdr => hdr.addStringI18N tag data
  | .addStringArray tag data, hdr => hdr.addStringArray tag data
  | .addInt16 tag data, hdr => hdr.addInt16 tag data
  | .addInt32 tag data, hdr => hdr.addInt32 tag data
  | .addInt64 tag data, hdr => hdr.addInt64 tag data
  | .addBin tag data, hdr => hdr.addBin tag data

/-- The tag a call hands to `Add`, before its offset is set. -/
def AddCall.tag : AddCall → Tag
  | .addString tag data => { tag := tag, type := rpmStringType, offset := 0, count := 1,
                             data := .string [data] }
  | .addStringI18N tag data => { tag := tag, type := rpmI18nstringType, offset := 0, count := 1,
                                 data := .string [data] }
  | .addStringArray tag data => { tag := tag, type := rpmStringArrayType, offset := 0,
                                  count := UInt32.ofNat data.length, data := .string data }
  | .addInt16 tag data => { tag := tag, type := rpmInt16Type, offset := 0,
                            count := UInt32.ofNat data.length, data := .uint16 data }
  | .addInt32 tag data => { tag := tag, type := rpmInt32Type, offset := 0,
                            count := UInt32.ofNat data.length, data := .uint32 data }
  | .addInt64 tag data => { tag := tag, type := rpmInt64Type, offset := 0,
                            count := UInt32.ofNat data.length, data := .uint64 data }
  | .addBin tag data => { tag := tag, type := rpmBinType, offset := 0,
                          count := UInt32.ofNat data.length, data := .bytes data }

theorem AddCall.run_eq_add (c : AddCall) (hdr : Header) : c.run hdr = hdr.add c.tag := by
  cases c <;> rfl

@[simp] theorem AddCall.tag_offset (c : AddCall) : c.tag.offset = 0 := by cases c <;> rfl

/-- A fresh `Header`, the calls in order, then `SetRegion` when a region id is given. -/
def Header.build (calls : List AddCall) (region : Option UInt32) : Header :=
  let hdr := calls.foldl (fun hdr c => c.run hdr) {}
  match region with
  | none => hdr
  | some tag => hdr.setRegion tag

@[simp] theorem Header.build_tags (calls : List AddCall) (region : Option UInt32) :
    (Header.build calls region).tags = (calls.foldl (fun hdr (c : AddCall) => c.run hdr) {}).tags := by
  cases region <;> rfl

@[simp] theorem Header.build_off (calls : List AddCall) (region : Option UInt32) :
    (Header.build calls region).off = (calls.foldl (fun hdr (c : AddCall) => c.run hdr) {}).off := by
  cases region <;> rfl

theorem foldl_run_region (calls : List AddCall) (hdr : Header) :
    (calls.foldl (fun hdr (c : AddCall) => c.run hdr) hdr).region = hdr.region := by
  induction calls generalizing hdr with
  | nil => rfl
  | cons c calls ih => rw [List.foldl_cons, ih, AddCall.run_eq_add]; rfl

@[simp] theorem Header.build_region (calls : List AddCall) (region : Option UInt32) :
    (Header.build calls region).region = region := by
  cases region <;> simp [Header.build, Header.setRegion, foldl_run_region]

/-- The alignment `Add` gives a value of each type. -/
def typeAlign (type : UInt32) : Nat :=
  if type = rpmInt16Type then 2
  else if type = rpmInt32Type then 4
  else if type = rpmInt64Type then 8
  else 1

/-- `p` rounded up to a multiple of `a`. -/
def alignUp (p a : Nat) : Nat := (p + a - 1) / a * a

theorem typeAlign_cases (type : UInt32) :
    typeAlign type = 1 ∨ typeAlign type = 2 ∨ typeAlign type = 4 ∨ typeAlign type = 8 := by
  unfold typeAlign; split_ifs <;> simp

/-- Where the data of the tags ends when each is placed as `Add` places it, from offset `p`. -/
def placeEnd (p : Nat) : List Tag → Nat
  | [] => p
  | t :: ts => placeEnd (alignUp p (typeAlign t.type) + t.data.len) ts

/-- The tags sit where `Add` puts them from offset `p`, the last one ending at `e`. -/
def Placed : Nat → List Tag → Nat → Prop
  | p, [], e => e = p
  | p, t :: ts, e =>
    t.offset.toNat = alignUp p (typeAlign t.type) ∧ Placed (t.offset.toNat + t.data.len) ts e

theorem le_alignUp (p : Nat) (type : UInt32) : p ≤ alignUp p (typeAlign type) := by
  unfold alignUp; rcases typeAlign_cases type with h | h | h | h <;> rw [h] <;> omega

theorem le_placeEnd (p : Nat) (ts : List Tag) : p ≤ placeEnd p ts := by
  induction ts generalizing p with
  | nil => exact le_rfl
  | cons t ts ih =>
    exact (le_alignUp p t.type).trans ((Nat.le_add_right _ _).trans (ih _))

theorem len_le_placeEnd {t : Tag} : ∀ {p : Nat} {ts : List Tag}, t ∈ ts → t.data.len ≤ placeEnd p ts
  | _, u :: _, h => by
    rcases List.mem_cons.mp h with rfl | h
    · exact (Nat.le_add_left _ _).trans (le_placeEnd _ _)
    · rw [placeEnd]
      exact len_le_placeEnd h

theorem placed_append {p e : Nat} {ts : List Tag} {t : Tag} (h : Placed p ts e)
    (ht : t.offset.toNat = alignUp e (typeAlign t.type)) :
    Placed p (ts ++ [t]) (t.offset.toNat + t.data.len) := by
  induction ts generalizing p with
  | nil => subst h; exact ⟨ht, rfl⟩
  | cons u ts ih => exact ⟨h.1, ih h.2⟩

theorem Header.toNat_align (hdr : Header) (n : UInt32) {k : Nat} (hn : n.toNat = 2 ^ k - 1) :
    (hdr.align n).toNat = (hdr.off.toNat + n.toNat) % 2 ^ 32 / 2 ^ k * 2 ^ k := by
  rw [Header.align, toNat_and_not_two_pow_sub_one _ _ hn, toNat_uint32_add]

/-- The `uint32` offset `Add` picks is the natural one modulo `2 ^ 32`: rounding up to a
divisor of `2 ^ 32` commutes with the wrap-around. -/
theorem Header.toNat_alignFor_mod (hdr : Header) (type : UInt32) :
    (hdr.alignFor type).toNat = alignUp hdr.off.toNat (typeAlign type) % 2 ^ 32 := by
  have hoff := uint32_toNat_lt hdr.off
  unfold Header.alignFor typeAlign alignUp
  split_ifs
  · rw [hdr.toNat_align 1 (k := 1) rfl, show (1 : UInt32).toNat = 1 from rfl]; omega
  · rw [hdr.toNat_align 3 (k := 2) rfl, show (3 : UInt32).toNat = 3 from rfl]; omega
  · rw [hdr.toNat_align 7 (k := 3) rfl, show (7 : UInt32).toNat = 7 from rfl]; omega
  · rw [Nat.add_sub_cancel, Nat.div_one, Nat.mul_one, Nat.mod_eq_of_lt hoff]

theorem Header.toNat_alignFor (hdr : Header) (type : UInt32)
    (hlt : alignUp hdr.off.toNat (typeAlign type) < 2 ^ 32) :
    (hdr.alignFor type).toNat = alignUp hdr.off.toNat (typeAlign type) := by
  rw [hdr.toNat_alignFor_mod, Nat.mod_eq_of_lt hlt]

/-- One `Add` extends the layout by one tag, placed where `Placed` says. -/
theorem Header.placed_add {hdr : Header} (h : Placed 0 hdr.tags hdr.off.toNat) (tag : Tag)
    (hlt : alignUp hdr.off.toNat (typeAlign tag.type) + tag.data.len < 2 ^ 32) :
    Placed 0 (hdr.add tag).tags (hdr.add tag).off.toNat ∧
      (hdr.add tag).off.toNat = alignUp hdr.off.toNat (typeAlign tag.type) + tag.data.len := by
  have hoff := hdr.toNat_alignFor tag.type (by omega)
  have hend : (hdr.add tag).off.toNat = alignUp hdr.off.toNat (typeAlign tag.type) + tag.data.len := by
    simp only [Header.add, toNat_uint32_add, toNat_uint32_ofNat, hoff]
    omega
  refine ⟨?_, hend⟩
  rw [hend, ← hoff]
  exact placed_append h hoff

theorem foldl_run_tags_erase (calls : List AddCall) (hdr : Header) :
    (calls.foldl (fun hdr (c : AddCall) => c.run hdr) hdr).tags.map
        (fun t => { t with offset := 0 }) =
      hdr.tags.map (fun t => { t with offset := 0 }) ++ calls.map AddCall.tag := by
  induction calls generalizing hdr with
  | nil => simp
  | cons c calls ih =>
    rw [List.foldl_cons, ih, AddCall.run_eq_add]
    simp only [Header.add, List.map_append, List.map_cons, List.map_nil, List.append_assoc,
      List.singleton_append]
    cases c <;> rfl

/-- The calls, from a header laid out as `Add` lays out, keep it laid out; the data end moves
as `placeEnd` says and each tag is the call's tag at its new offset. -/
theorem foldl_run_placed (calls : List AddCall) {hdr : Header}
    (h : Placed 0 hdr.tags hdr.off.toNat)
    (hlt : placeEnd hdr.off.toNat (calls.map AddCall.tag) < 2 ^ 32) :
    let hdr' := calls.foldl (fun hdr c => c.run hdr) hdr
    Placed 0 hdr'.tags hdr'.off.toNat ∧
      hdr'.off.toNat = placeEnd hdr.off.toNat (calls.map AddCall.tag) ∧
      hdr'.tags.map (fun t => { t with offset := 0 }) =
        hdr.tags.map (fun t => { t with offset := 0 }) ++ calls.map AddCall.tag ∧
      hdr'.region = hdr.region := by
  intro hdr'
  suffices hlay : Placed 0 hdr'.tags hdr'.off.toNat ∧
      hdr'.off.toNat = placeEnd hdr.off.toNat (calls.map AddCall.tag) from
    ⟨hlay.1, hlay.2, foldl_run_tags_erase calls hdr, foldl_run_region calls hdr⟩
  induction calls generalizing hdr with
  | nil => exact ⟨h, rfl⟩
  | cons c calls ih =>
    have hstep : alignUp hdr.off.toNat (typeAlign c.tag.type) + c.tag.data.len < 2 ^ 32 :=
      lt_of_le_of_lt (le_placeEnd _ _) hlt
    obtain ⟨hplaced, hend⟩ := hdr.placed_add h c.tag hstep
    obtain ⟨hp, ho⟩ := ih hplaced (by rw [hend]; exact hlt)
    simp only [hdr']
    rw [List.foldl_cons, AddCall.run_eq_add c hdr]
    exact ⟨hp, ho.trans (by rw [hend]; rfl)⟩

/-- A header built by `Add*` calls and `SetRegion` is laid out as `Add` intends, its tags are
the calls' tags at their offsets, and `off` is where the data ends, while that stays below
`2 ^ 32`. -/
theorem build_placed (calls : List AddCall) (region : Option UInt32)
    (hlt : placeEnd 0 (calls.map AddCall.tag) < 2 ^ 32) :
    let hdr := Header.build calls region
    Placed 0 hdr.tags hdr.off.toNat ∧ hdr.off.toNat = placeEnd 0 (calls.map AddCall.tag) ∧
      hdr.tags.map (fun t => { t with offset := 0 }) = calls.map AddCall.tag ∧
      hdr.region = region := by
  have h := @foldl_run_placed calls {} rfl hlt
  simp only [List.map_nil, List.nil_append] at h
  cases region <;> exact ⟨h.1, h.2.1, h.2.2.1, by simp [Header.build, Header.setRegion, h.2.2.2]⟩

end GoRpm
