import GoRpm.Tag

/-!
File modes (`Mode` and `osMode` of `files.go`). `Mode` turns the Go `os.FileMode` of a file, as
`tar2rpm` takes it from a tar header, into the `uint16` of `RPMTAG_FILEMODES`: the type code in
the top four bits and the permission bits below; `osMode` maps it back. A `FileMode` keeps its
setuid, setgid and sticky bits at bits 23, 22 and 20, far from the permission bits, and `Mode`
keeps only `mode & os.ModePerm`: the three bits do not reach the RPM mode and do not come back.
-/

namespace GoRpm

/-- The bits of `io/fs.FileMode` that `Mode` and `osMode` use, as the Go library defines them:
`ModeDir` is the top bit, and the others follow it downwards. -/
def modeDir : UInt32 := (1 : UInt32) <<< 31
def modeSymlink : UInt32 := (1 : UInt32) <<< 27
def modeDevice : UInt32 := (1 : UInt32) <<< 26
def modeNamedPipe : UInt32 := (1 : UInt32) <<< 25
def modeSocket : UInt32 := (1 : UInt32) <<< 24
def modeSetuid : UInt32 := (1 : UInt32) <<< 23
def modeSetgid : UInt32 := (1 : UInt32) <<< 22
def modeCharDevice : UInt32 := (1 : UInt32) <<< 21
def modeSticky : UInt32 := (1 : UInt32) <<< 20
def modeIrregular : UInt32 := (1 : UInt32) <<< 19

/-- `os.ModeType`: the bits that say what kind of file it is. -/
def modeType : UInt32 :=
  modeDir ||| modeSymlink ||| modeNamedPipe ||| modeSocket ||| modeDevice ||| modeCharDevice |||
    modeIrregular

/-- `os.ModePerm`: the Unix permission bits. -/
def modePerm : UInt32 := 0o777

/-- `typeDir`, `typeRegular`, `typeSymlink`: the file type in the top four bits of an RPM mode. -/
def typeDir : UInt16 := 0o4
def typeRegular : UInt16 := 0o10
def typeSymlink : UInt16 := 0o12

/-- The `switch mode & os.ModeType` of `Mode`: the type code of a regular file, a directory or
a symbolic link; `none` for any other kind of file. -/
def typeCode (m : UInt32) : Option UInt16 :=
  if m &&& modeType = 0 then some typeRegular
  else if m &&& modeType = modeDir then some typeDir
  else if m &&& modeType = modeSymlink then some typeSymlink
  else none

/-- `Mode`: `r<<12 | uint16(mode&os.ModePerm)`, or `errInvalidFileMode`. -/
def mode (m : UInt32) : Except RpmError UInt16 :=
  match typeCode m with
  | some r => .ok (r <<< 12 ||| (m &&& modePerm).toUInt16)
  | none => .error .invalidFileMode

/-- `osMode`: `ModeDir` or `ModeSymlink` for their type codes, nothing for a regular file or
any other code, and the permission bits. -/
def osMode (m : UInt16) : UInt32 :=
  let r : UInt32 :=
    if m >>> 12 = typeDir then modeDir else if m >>> 12 = typeSymlink then modeSymlink else 0
  r ||| (m.toUInt32 &&& modePerm)

theorem toNat_uint16_or (a b : UInt16) : (a ||| b).toNat = a.toNat ||| b.toNat :=
  BitVec.toNat_or _ _

theorem toNat_uint32_or (a b : UInt32) : (a ||| b).toNat = a.toNat ||| b.toNat :=
  BitVec.toNat_or _ _

theorem toNat_perm (m : UInt32) : (m &&& modePerm).toNat = m.toNat % 512 :=
  (UInt32.and_toNat _ _).trans (Nat.and_pow_two_sub_one_eq_mod _ 9)

theorem toNat_toUInt16_perm (m : UInt32) : (m &&& modePerm).toUInt16.toNat = m.toNat % 512 := by
  have := toNat_perm m
  simp only [UInt32.toUInt16, Nat.toUInt16, toNat_uint16_ofNat, this]
  omega

/-- The RPM mode `Mode` packs: a type code below sixteen in the top four bits, and below it a
number below 512, with the three bits between them clear. -/
theorem toNat_pack {c p : UInt16} (hc : c.toNat < 16) (hp : p.toNat < 512) :
    (c <<< 12 ||| p).toNat = c.toNat * 4096 + p.toNat := by
  have hshift : (c <<< 12).toNat = 2 ^ 12 * c.toNat := by
    change (c.toBitVec <<< ((12 : UInt16) % 16).toBitVec).toNat = _
    rw [BitVec.shiftLeft_eq', BitVec.toNat_shiftLeft]
    change c.toNat <<< 12 % 2 ^ 16 = _
    rw [Nat.shiftLeft_eq]
    omega
  rw [toNat_uint16_or, hshift, ← Nat.mul_add_lt_is_or (by omega)]
  omega

theorem toNat_shiftRight_twelve (v : UInt16) : (v >>> 12).toNat = v.toNat / 4096 := by
  change (v.toBitVec >>> ((12 : UInt16) % 16).toBitVec).toNat = _
  rw [BitVec.ushiftRight_eq', BitVec.toNat_ushiftRight]
  exact Nat.shiftRight_eq_div_pow _ 12

theorem osMode_pack {c : UInt16} (hc : c.toNat < 16) (m : UInt32) :
    osMode (c <<< 12 ||| (m &&& modePerm).toUInt16) =
      (if c = typeDir then modeDir else if c = typeSymlink then modeSymlink else 0) |||
        (m &&& modePerm) := by
  have hq := toNat_toUInt16_perm m
  have hv := toNat_pack hc (p := (m &&& modePerm).toUInt16) (by omega)
  have htop : (c <<< 12 ||| (m &&& modePerm).toUInt16) >>> 12 = c :=
    UInt16.toNat.inj (by rw [toNat_shiftRight_twelve, hv]; omega)
  have hperm : (c <<< 12 ||| (m &&& modePerm).toUInt16).toUInt32 &&& modePerm = m &&& modePerm :=
    UInt32.toNat.inj (by
      rw [toNat_perm, toNat_perm]
      change (c <<< 12 ||| (m &&& modePerm).toUInt16).toNat % 512 = _
      omega)
  simp only [osMode, htop, hperm]

/-- `Mode` accepts a regular file, a directory and a symbolic link: it puts the type code in the
top four bits and `mode & os.ModePerm` in the bottom nine, with the three bits between them
clear, and `osMode` gives back the type and permission bits of the `FileMode`. -/
theorem mode_osMode (m : UInt32)
    (ht : m &&& modeType = 0 ∨ m &&& modeType = modeDir ∨ m &&& modeType = modeSymlink) :
    ∃ c v, typeCode m = some c ∧ mode m = .ok v ∧ v.toNat = c.toNat * 4096 + m.toNat % 512 ∧
      osMode v = m &&& (modeType ||| modePerm) := by
  obtain ⟨c, hcode, hc, hr⟩ : ∃ c, typeCode m = some c ∧ c.toNat < 16 ∧
      (if c = typeDir then modeDir else if c = typeSymlink then modeSymlink else 0) =
        m &&& modeType := by
    rcases ht with h | h | h
    · exact ⟨typeRegular, by simp [typeCode, h], by decide, by rw [h]; decide⟩
    · exact ⟨typeDir, by simp [typeCode, h]; decide, by decide, by rw [h]; decide⟩
    · exact ⟨typeSymlink, by simp [typeCode, h]; decide, by decide, by rw [h]; decide⟩
  refine ⟨c, c <<< 12 ||| (m &&& modePerm).toUInt16, hcode, by simp [mode, hcode], ?_, ?_⟩
  · rw [toNat_pack hc (by rw [toNat_toUInt16_perm]; omega), toNat_toUInt16_perm]
  · rw [osMode_pack hc, hr]
    exact UInt32.toNat.inj (by simp only [toNat_uint32_or, UInt32.and_toNat,
      Nat.and_or_distrib_left])

theorem mode_osMode_dir :
    (modeDir ||| 0o755) &&& modeType = modeDir ∧
      ∃ c v, typeCode (modeDir ||| 0o755) = some c ∧ mode (modeDir ||| 0o755) = .ok v ∧
        v.toNat = c.toNat * 4096 + (modeDir ||| 0o755).toNat % 512 ∧
        osMode v = (modeDir ||| 0o755) &&& (modeType ||| modePerm) :=
  ⟨by decide, mode_osMode _ (.inr (.inl (by decide)))⟩

/-- A regular file with mode `07755` (setuid, setgid and sticky): `Mode` returns `0100755`, not
`0107755`, and `osMode` gives back `0755`, without `ModeSetuid`, `ModeSetgid` or `ModeSticky`. -/
theorem mode_drops_special_bits :
    mode (modeSetuid ||| modeSetgid ||| modeSticky ||| 0o755) = .ok 0o100755 ∧
      osMode 0o100755 = 0o755 :=
  ⟨rfl, rfl⟩

end GoRpm
