import GoRpm.Files.Add
import GoRpm.Files.Mode
import GoRpm.Files.Path

/-!
The file listing `FileIndex.Dump` prints, one line per file (`rpmdump -files`). `Dump` checks
that the columns it reads have one entry per base name, then `dumpIndex` prints each file's
verify flags and flags as letters, its digest, mode, owner, group, size, time and path; the
path is `path.Join` of its directory and its base name, and a link target follows an arrow.
The text layout (`tabwriter`, `time.Format`, `FileMode.String`) is not modelled: a line is the
values it prints.

On an index `Add` built, the check passes, no column is read out of range, and each line
shows what was added: the path cleaned, with a `/` in front when it had no directory, the
`NoVerify` bits, and the owner and group, `-` for `root` or empty.
-/

namespace GoRpm

/-- The digits of `hexEncode`, one for each of the 32 bits. -/
def encodeHex : List UInt8 :=
  [48, 49, 50, 51, 52, 53, 54, 55, 56, 57, 65, 66, 67, 68, 69, 70, 71, 72, 73, 74, 75, 76, 77,
    78, 79, 80, 81, 82, 83, 84, 85, 86]

/-- `hexEncode`: `-` for no bit, `!` for every bit, and otherwise the digit of each set bit,
lowest first. -/
def hexEncode (m : UInt32) : List UInt8 :=
  if m = 0 then [45]
  else if ~~~m = 0 then [33]
  else (List.range 32).filterMap fun i =>
    if (m >>> UInt32.ofNat i) &&& 1 = 0 then none else encodeHex[i]?

/-- The text `-`. -/
def dash : List UInt8 := [45]

/-- The text ` -> ` before a link target. -/
def arrow : List UInt8 := [32, 45, 62, 32]

/-- `FileIndex.fsize`: the long size when there is one, else the 32-bit size, else 0. -/
def FileIndex.fsize (f : FileIndex) (idx : Nat) : UInt64 :=
  match (f.lsize.getD [])[idx]? with
  | some s => s
  | none =>
    match f.size[idx]? with
    | some s => s.toUInt64
    | none => 0

/-- `FileIndex.file`: the path of file `i`, `path.Join` of its directory and base name, then
` -> ` and the link target when there is one; an index out of range panics. -/
def FileIndex.file (f : FileIndex) (i : Nat) : Except RpmError (List UInt8) := do
  let d ← sliceAt f.dirIndexes i
  let n ← sliceAt f.name i
  let l ← sliceAt f.linkto i
  let l := if l = [] then [] else arrow ++ l
  let dir ← sliceAt f.dirNames.s d.toNat
  return pathJoin [dir, n] ++ l

/-- The values one line of the listing prints: the mode as the `os.FileMode` `osMode` makes
of it, the time as its seconds. -/
structure DumpLine where
  verify : List UInt8
  flags : List UInt8
  digest : List UInt8
  mode : UInt32
  user : List UInt8
  group : List UInt8
  size : UInt64
  mtime : UInt32
  file : List UInt8
  deriving DecidableEq, Repr

/-- `FileIndex.dumpIndex`: the line of file `i`, its arguments read in order. -/
def FileIndex.dumpIndex (f : FileIndex) (i : Nat) : Except RpmError DumpLine := do
  let verify ← sliceAt f.verify i
  let flags ← sliceAt f.flags i
  let digest ← sliceAt f.digest i
  let mode ← sliceAt f.mode i
  let user ← sliceAt f.user i
  let group ← sliceAt f.group i
  let mtime ← sliceAt f.mtime i
  let file ← f.file i
  return { verify := hexEncode (~~~verify), flags := hexEncode flags,
           digest := orDefault digest [] dash, mode := osMode mode,
           user := orDefault user rootName dash, group := orDefault group rootName dash,
           size := f.fsize i, mtime, file }

/-- Why `Dump` fails: the column check, with the position of the first column whose length is
not the number of base names, or a panic of `dumpIndex`. -/
inductive DumpError where
  | invalidFileIndex (column : Nat)
  | rpm (e : RpmError)
  deriving DecidableEq, Repr

/-- `FileIndex.Dump`: nothing for an index without base names; otherwise the columns checked
against the base names, in the order `Dump` lists them, then one line per base name. -/
def FileIndex.dump (f : FileIndex) : Except DumpError (List DumpLine) :=
  if f.name.length = 0 then .ok [] else
  let lens := [f.verify.length, f.flags.length, f.digest.length, f.user.length, f.group.length,
    f.mtime.length, f.dirIndexes.length, f.linkto.length]
  match lens.findIdx? (· ≠ f.name.length) with
  | some i => .error (.invalidFileIndex i)
  | none => (List.range f.name.length).mapM fun i => (f.dumpIndex i).mapError .rpm

theorem toNat_shiftRight_and_one (m : UInt32) {i : Nat} (hi : i < 32) :
    ((m >>> UInt32.ofNat i) &&& 1).toNat = m.toNat / 2 ^ i % 2 := by
  change ((m.toBitVec >>> (UInt32.ofNat i % 32).toBitVec) &&& (1 : BitVec 32)).toNat = _
  rw [BitVec.toNat_and, BitVec.ushiftRight_eq', BitVec.toNat_ushiftRight]
  have h1 : (1 : BitVec 32).toNat = 2 ^ 1 - 1 := rfl
  have hs : (UInt32.ofNat i % 32).toBitVec.toNat = i := by
    change (UInt32.ofNat i % 32).toNat = i
    rw [UInt32.toNat_mod, toNat_uint32_ofNat]
    change i % 2 ^ 32 % 32 = i
    omega
  rw [h1, Nat.and_pow_two_sub_one_eq_mod, hs, Nat.shiftRight_eq_div_pow]
  rfl

theorem shiftRight_and_one_eq_zero (m : UInt32) {i : Nat} (hi : i < 32) :
    (m >>> UInt32.ofNat i) &&& 1 = 0 ↔ m.toNat.testBit i = false := by
  have key : (m >>> UInt32.ofNat i) &&& 1 = 0 ↔ m.toNat / 2 ^ i % 2 = 0 := by
    rw [← toNat_shiftRight_and_one m hi]
    exact ⟨fun h => by rw [h]; rfl, fun h => UInt32.toNat.inj h⟩
  rw [key, Nat.testBit_to_div_mod, decide_eq_false_iff_not]
  omega

/-- Apart from `-` and `!`, `hexEncode` writes the digit of bit `j` exactly when bit `j` is
set. -/
theorem mem_hexEncode {m : UInt32} (h0 : m ≠ 0) (h1 : ~~~m ≠ 0) {c : UInt8} :
    c ∈ hexEncode m ↔ ∃ j < 32, m.toNat.testBit j = true ∧ encodeHex[j]? = some c := by
  simp only [hexEncode, h0, h1, if_false, List.mem_filterMap, List.mem_range]
  constructor
  · rintro ⟨j, hj, hc⟩
    split_ifs at hc with hb
    exact ⟨j, hj, by simpa [shiftRight_and_one_eq_zero m hj] using hb, hc⟩
  · rintro ⟨j, hj, hb, hc⟩
    refine ⟨j, hj, ?_⟩
    rw [if_neg (by simpa [shiftRight_and_one_eq_zero m hj] using hb)]
    exact hc

theorem encodeHex_inj {i j : Nat} {c : UInt8} (hi : encodeHex[i]? = some c)
    (hj : encodeHex[j]? = some c) : i = j := by
  obtain ⟨hi', hic⟩ := List.getElem?_eq_some_iff.mp hi
  obtain ⟨hj', hjc⟩ := List.getElem?_eq_some_iff.mp hj
  exact ((List.Nodup.getElem_inj_iff (List.Nodup.of_map UInt8.toNat (by decide))).mp (hic.trans hjc.symm))

theorem hexEncode_eq_dash {m : UInt32} : hexEncode m = [45] ↔ m = 0 := by
  constructor
  · intro h
    by_contra h0
    by_cases h1 : ~~~m = 0
    · simp [hexEncode, h0, h1] at h
    obtain ⟨j, hj, -, hc⟩ := (mem_hexEncode h0 h1).mp (h ▸ List.mem_singleton_self 45)
    have := List.getElem?_mem hc
    simp [encodeHex] at this
  · rintro rfl; rfl

theorem hexEncode_eq_bang {m : UInt32} : hexEncode m = [33] ↔ ~~~m = 0 := by
  constructor
  · intro h
    by_contra h1
    by_cases h0 : m = 0
    · simp [hexEncode, h0] at h
    obtain ⟨j, hj, -, hc⟩ := (mem_hexEncode h0 h1).mp (h ▸ List.mem_singleton_self 33)
    have := List.getElem?_mem hc
    simp [encodeHex] at this
  · intro h1
    have h0 : m ≠ 0 := by rintro rfl; exact absurd h1 (by decide)
    simp [hexEncode, h0, h1]

theorem uint32_not_not (x : UInt32) : ~~~(~~~x) = x := by
  show (⟨~~~(~~~x.toBitVec)⟩ : UInt32) = x
  rw [BitVec.not_not]

/-- The listing's letters determine the flags: no two `uint32` words print the same. -/
theorem hexEncode_injective : Function.Injective hexEncode := by
  intro m m' h
  by_cases h0 : m = 0
  · exact h0.trans (hexEncode_eq_dash.mp (h ▸ hexEncode_eq_dash.mpr h0)).symm
  by_cases h1 : ~~~m = 0
  · have h1' := hexEncode_eq_bang.mp (h ▸ hexEncode_eq_bang.mpr h1)
    rw [← uint32_not_not m, ← uint32_not_not m', h1, h1']
  have h0' : m' ≠ 0 := fun h0' => h0 (hexEncode_eq_dash.mp (h.trans (hexEncode_eq_dash.mpr h0')))
  have h1' : ~~~m' ≠ 0 := fun h1' => h1 (hexEncode_eq_bang.mp (h.trans (hexEncode_eq_bang.mpr h1')))
  apply UInt32.toNat.inj
  apply Nat.eq_of_testBit_eq
  intro j
  by_cases hj : j < 32
  · have hdigit : ∃ c, encodeHex[j]? = some c :=
      ⟨_, List.getElem?_eq_getElem (by simpa [encodeHex] using hj)⟩
    obtain ⟨c, hc⟩ := hdigit
    have key : ∀ {x : UInt32}, x ≠ 0 → ~~~x ≠ 0 → (c ∈ hexEncode x ↔ x.toNat.testBit j = true) :=
      fun hx0 hx1 => (mem_hexEncode hx0 hx1).trans
        ⟨fun ⟨k, _, hb, hk⟩ => encodeHex_inj hk hc ▸ hb, fun hb => ⟨j, hj, hb, hc⟩⟩
    rw [Bool.eq_iff_iff, ← key h0 h1, ← key h0' h1', h]
  · have hlt : ∀ x : UInt32, x.toNat.testBit j = false := fun x =>
      Nat.testBit_eq_false_of_lt (lt_of_lt_of_le (uint32_toNat_lt x)
        (Nat.pow_le_pow_right (by norm_num) (by omega)))
    rw [hlt, hlt]

theorem dirPart_getLast (path : List UInt8) : (dirPart path).getLast? = some 47 := by
  unfold dirPart
  split_ifs with h
  · rfl
  · have hne : path.reverse.dropWhile (fun b => decide (b ≠ 47)) ≠ [] := by
      simpa [splitPath] using h
    have hhead := List.head_dropWhile_not (fun b => decide (b ≠ 47)) path.reverse hne
    simp only [decide_eq_false_iff_not, not_not] at hhead
    simp only [splitPath, List.getLast?_reverse, List.head?_eq_head hne, hhead]

/-- What `dumpIndex` prints for a file `Add` stored: its `NoVerify` bits and flags as letters,
`-` for no digest, the `FileMode` of its mode, `-` for an owner or group that is empty or
`root`, and its path cleaned, with a `/` in front when it has no directory, then its link target
after an arrow. -/
def File.dumpLine (r : File) : DumpLine where
  verify := hexEncode r.noVerify
  flags := hexEncode r.flags
  digest := if r.digest = [] then dash else r.digest
  mode := osMode r.mode
  user := if r.user = [] ∨ r.user = rootName then dash else r.user
  group := if r.group = [] ∨ r.group = rootName then dash else r.group
  size := r.size
  mtime := r.mTime
  file := pathClean r.entry.path ++ if r.linkTo = [] then [] else arrow ++ r.linkTo

theorem FileIndex.file_ofFiles {files : List File} (hdirs : (dirTable files).length ≤ 2 ^ 32)
    {i : Nat} (hi : i < files.length) :
    (FileIndex.ofFiles files).file i = .ok (files[i].dumpLine.file) := by
  obtain ⟨k, hk, hdi⟩ := FileIndex.ofFiles_dirIndex files hi
  have hklt : k < 2 ^ 32 := lt_of_lt_of_le (List.getElem?_eq_some_iff.mp hk).1 hdirs
  simp only [FileIndex.file, sliceAt, hdi, ok_bind]
  simp only [FileIndex.ofFiles, List.getElem?_map, List.getElem?_eq_getElem hi, Option.map_some',
    ok_bind, PrefixMap.ofTable_s, toNat_uint32_ofNat, Nat.mod_eq_of_lt hklt, hk,
    pathJoin_dir_base (dirPart_getLast _), dirPart_append_basePart, File.dumpLine, File.entry,
    pure_eq_ok]

theorem orDefault_root (u : List UInt8) :
    orDefault (orDefault u [] rootName) rootName dash =
      if u = [] ∨ u = rootName then dash else u := by
  by_cases h0 : u = [] <;> by_cases h1 : u = rootName <;> simp_all [orDefault, rootName]

theorem FileIndex.dumpIndex_ofFiles {files : List File}
    (hdirs : (dirTable files).length ≤ 2 ^ 32) {i : Nat} (hi : i < files.length) :
    (FileIndex.ofFiles files).dumpIndex i = .ok files[i].dumpLine := by
  have hfiles : files ≠ [] := List.ne_nil_of_length_pos (Nat.zero_lt_of_lt hi)
  simp only [FileIndex.dumpIndex, FileIndex.file_ofFiles hdirs hi]
  simp only [sliceAt, FileIndex.ofFiles, List.getElem?_map, List.getElem?_eq_getElem hi,
    Option.map_some', ok_bind, pure_eq_ok, uint32_not_not, FileIndex.fsize, hfiles, if_false,
    Option.getD_some, orDefault_root]
  rfl

theorem mapM_range'_ok {α β ε : Type} {f : Nat → Except ε β} {g : α → β} :
    ∀ (l : List α) (s : Nat), (∀ i (hi : i < l.length), f (s + i) = .ok (g l[i])) →
      (List.range' s l.length).mapM f = .ok (l.map g)
  | [], _, _ => rfl
  | a :: l, s, h => by
    have ha : f s = .ok (g a) := h 0 (Nat.succ_pos _)
    have hl := mapM_range'_ok l (s + 1) fun i hi => by
      rw [show s + 1 + i = s + (i + 1) by omega]
      exact h (i + 1) (Nat.succ_lt_succ hi)
    rw [List.length_cons, List.range'_succ, List.mapM_cons, ha, hl]
    rfl

theorem FileIndex.dump_ofFiles (files : List File) (hdirs : (dirTable files).length ≤ 2 ^ 32) :
    (FileIndex.ofFiles files).dump = .ok (files.map File.dumpLine) := by
  by_cases hfiles : files = []
  · subst hfiles; rfl
  have hname : (FileIndex.ofFiles files).name.length = files.length := by simp [FileIndex.ofFiles]
  have hlens : [(FileIndex.ofFiles files).verify.length, (FileIndex.ofFiles files).flags.length,
      (FileIndex.ofFiles files).digest.length, (FileIndex.ofFiles files).user.length,
      (FileIndex.ofFiles files).group.length, (FileIndex.ofFiles files).mtime.length,
      (FileIndex.ofFiles files).dirIndexes.length, (FileIndex.ofFiles files).linkto.length].findIdx?
        (· ≠ files.length) = none := by
    simp [FileIndex.ofFiles, List.findIdx?_cons]
  rw [FileIndex.dump, if_neg (by rw [hname]; exact mt List.length_eq_zero.mp hfiles)]
  simp only [hname, hlens, List.range_eq_range']
  exact mapM_range'_ok files 0 fun i hi => by
    rw [Nat.zero_add, FileIndex.dumpIndex_ofFiles hdirs hi]; rfl

/-- `Dump` on the index `Add` builds from files, file after file, while the directory table has
at most `2 ^ 32` entries: the column check passes, no column is read out of range, and the
listing has one line per file, in order, showing that file. -/
theorem dump_add_run (files : List File) (hdirs : (dirTable files).length ≤ 2 ^ 32) :
    (files.foldl FileIndex.add newFileIndex).dump = .ok (files.map File.dumpLine) := by
  rw [add_run_eq_ofFiles]
  exact FileIndex.dump_ofFiles files hdirs

theorem dump_add_run_sh :
    let files : List File :=
      [{ name := [47, 98, 105, 110, 47, 115, 104], user := [], group := [], mode := 33261,
         linkTo := [], mTime := 0, digest := [], noVerify := 0, size := 0, flags := 0 }]
    (dirTable files).length ≤ 2 ^ 32 ∧
      (files.foldl FileIndex.add newFileIndex).dump = .ok (files.map File.dumpLine) :=
  ⟨by decide, dump_add_run _ (by decide)⟩

end GoRpm
