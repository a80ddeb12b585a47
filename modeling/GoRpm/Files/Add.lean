import GoRpm.Files.Index

/-!
What `Add` builds, stated directly: `FileIndex.ofFiles` gives each column as the files'
attribute in order, the directory table as the directory parts in order of first use, each
once, with the map from each to its position, and a file's directory index as its
directory's position, cut to `uint32` as `uint32(di)` cuts it. `add_run_eq_ofFiles` shows that
`Add`, file after file from `NewFileIndex`, builds exactly that index; what the columns say
about each file is read off `ofFiles` by `FileIndex.entry`.
-/

namespace GoRpm

/-- The directory `prefixMap.index` files a path under. -/
def dirPart (path : List UInt8) : List UInt8 :=
  if (splitPath path).1 = [] then [47] else (splitPath path).1

/-- The base name `prefixMap.index` returns. -/
def basePart (path : List UInt8) : List UInt8 := (splitPath path).2

theorem splitPath_append (path : List UInt8) : (splitPath path).1 ++ (splitPath path).2 = path := by
  rw [splitPath, ← List.reverse_append, List.takeWhile_append_dropWhile, List.reverse_reverse]

theorem splitPath_fst_eq_nil {path : List UInt8} : (splitPath path).1 = [] ↔ 47 ∉ path := by
  simp only [splitPath, List.reverse_eq_nil_iff, List.dropWhile_eq_nil_iff, List.mem_reverse,
    decide_eq_true_eq]
  exact ⟨fun h h47 => h 47 h47 rfl, fun h x hx hx47 => h (hx47 ▸ hx)⟩

/-- The directory part and the base name make the path again, with a `/` in front of a path
that has none. -/
theorem dirPart_append_basePart (path : List UInt8) :
    dirPart path ++ basePart path = if 47 ∈ path then path else 47 :: path := by
  have happ := splitPath_append path
  by_cases h : 47 ∈ path
  · have hne : (splitPath path).1 ≠ [] := fun h0 => splitPath_fst_eq_nil.mp h0 h
    simp [dirPart, basePart, hne, happ, h]
  · have h0 := splitPath_fst_eq_nil.mpr h
    rw [h0, List.nil_append] at happ
    simp [dirPart, basePart, h0, happ, h]

theorem dirPart_subset (path : List UInt8) : ∀ b ∈ dirPart path, b ∈ path ∨ b = 47 := by
  intro b hb
  unfold dirPart at hb
  split_ifs at hb
  · exact .inr (List.mem_singleton.mp hb)
  · exact .inl (splitPath_append path ▸ List.mem_append_left _ hb)

theorem basePart_subset (path : List UInt8) : ∀ b ∈ basePart path, b ∈ path :=
  fun _ hb => splitPath_append path ▸ List.mem_append_right _ hb

/-- Each element of a list once, where it first occurs: `dedup` keeps last occurrences, so it
runs on the reversed list. -/
def firstOccurrences (l : List (List UInt8)) : List (List UInt8) := l.reverse.dedup.reverse

theorem firstOccurrences_append_of_mem {l : List (List UInt8)} {d : List UInt8} (h : d ∈ l) :
    firstOccurrences (l ++ [d]) = firstOccurrences l := by
  simp [firstOccurrences, List.dedup_cons_of_mem (List.mem_reverse.mpr h)]

theorem firstOccurrences_append_of_not_mem {l : List (List UInt8)} {d : List UInt8} (h : d ∉ l) :
    firstOccurrences (l ++ [d]) = firstOccurrences l ++ [d] := by
  simp [firstOccurrences, List.dedup_cons_of_not_mem (mt List.mem_reverse.mp h)]

@[simp] theorem mem_firstOccurrences {l : List (List UInt8)} {d : List UInt8} :
    d ∈ firstOccurrences l ↔ d ∈ l := by
  simp [firstOccurrences]

theorem nodup_firstOccurrences (l : List (List UInt8)) : (firstOccurrences l).Nodup :=
  List.nodup_reverse.mpr (List.nodup_dedup _)

/-- The map from each entry of a table to its position, counted from `n`. -/
def positions (n : Nat) : List (List UInt8) → GoMap
  | [] => []
  | d :: ds => (d, n) :: positions (n + 1) ds

@[simp] theorem length_positions (n : Nat) (s : List (List UInt8)) :
    (positions n s).length = s.length := by
  induction s generalizing n <;> simp_all [positions]

theorem positions_append (n : Nat) (s : List (List UInt8)) (d : List UInt8) :
    positions n (s ++ [d]) = positions n s ++ [(d, n + s.length)] := by
  induction s generalizing n with
  | nil => rfl
  | cons e s ih => simp [positions, ih, Nat.add_assoc, Nat.add_comm 1]

theorem find_positions_of_not_mem {s : List (List UInt8)} {d : List UInt8} (h : d ∉ s) (n : Nat) :
    (positions n s).find d = none := by
  induction s generalizing n with
  | nil => rfl
  | cons e s ih =>
    rw [positions, GoMap.find_cons, if_neg (fun (he : e = d) => h (he ▸ List.mem_cons_self e s))]
    exact ih (fun hs => h (List.mem_cons_of_mem e hs)) _

theorem find_positions_of_mem {s : List (List UInt8)} {d : List UInt8} (h : d ∈ s) (n : Nat) :
    ∃ k, s[k]? = some d ∧ (positions n s).find d = some (n + k) := by
  induction s generalizing n with
  | nil => cases h
  | cons e s ih =>
    rw [positions, GoMap.find_cons]
    by_cases he : e = d
    · exact ⟨0, by simp [he], by simp [he]⟩
    · obtain ⟨k, hk, hfind⟩ := ih ((List.mem_cons.mp h).resolve_left (Ne.symm he)) (n + 1)
      exact ⟨k + 1, by simpa using hk, by rw [if_neg he, hfind, Nat.add_right_comm, Nat.add_assoc]⟩

theorem find_positions_getElem {s : List (List UInt8)} (hs : s.Nodup) (n : Nat) {k : Nat}
    (hk : k < s.length) : (positions n s).find s[k] = some (n + k) := by
  obtain ⟨j, hj, hfind⟩ := find_positions_of_mem (List.getElem_mem hk) n
  obtain ⟨hj', hjk⟩ := List.getElem?_eq_some_iff.mp hj
  rw [hfind, (hs.getElem_inj_iff).mp hjk]

/-- The directory table the files call for. -/
def dirTable (files : List File) : List (List UInt8) :=
  firstOccurrences (files.map fun r => dirPart r.name)

/-- A `prefixMap` holding a table and the position of each entry. -/
def PrefixMap.ofTable (dirs : List (List UInt8)) : PrefixMap := { s := dirs, m := positions 0 dirs }

@[simp] theorem PrefixMap.ofTable_s (dirs : List (List UInt8)) : (PrefixMap.ofTable dirs).s = dirs :=
  rfl

@[simp] theorem PrefixMap.ofTable_m (dirs : List (List UInt8)) :
    (PrefixMap.ofTable dirs).m = positions 0 dirs := rfl

/-- The index of a list of files: one entry per file in every column `Add` fills, the
directory table with each directory's position, and the running sum of the sizes modulo
`2 ^ 64`. -/
def FileIndex.ofFiles (files : List File) : FileIndex :=
  let dirs := dirTable files
  { dirNames := PrefixMap.ofTable dirs
    dirIndexes :=
      files.map fun r => UInt32.ofNat (((positions 0 dirs).find (dirPart r.name)).getD 0)
    name := files.map fun r => basePart r.name
    user := files.map fun r => orDefault r.user [] rootName
    group := files.map fun r => orDefault r.group [] rootName
    mtime := files.map File.mTime
    mode := files.map File.mode
    linkto := files.map File.linkTo
    digest := files.map File.digest
    flags := files.map File.flags
    verify := files.map fun r => ~~~r.noVerify
    lsize := if files = [] then none else some (files.map File.size)
    rpmlsize := UInt64.ofNat (files.map fun r => r.size.toNat).sum }

@[simp] theorem FileIndex.ofFiles_dirNames (files : List File) :
    (FileIndex.ofFiles files).dirNames = PrefixMap.ofTable (dirTable files) := rfl

theorem uint64_ofNat_add (n : Nat) (x : UInt64) : UInt64.ofNat n + x = UInt64.ofNat (n + x.toNat) :=
  UInt64.toNat.inj (by simp [Nat.add_mod])

/-- `index` on the table of the files so far: a known directory keeps the table, a new one is
appended at the next position. -/
theorem PrefixMap.index_dirTable (files : List File) (r : File) :
    ∃ k, (PrefixMap.ofTable (dirTable files)).index r.name =
        ((basePart r.name, k), PrefixMap.ofTable (dirTable (files ++ [r]))) ∧
      (positions 0 (dirTable (files ++ [r]))).find (dirPart r.name) = some k ∧
      ∀ f ∈ files, (positions 0 (dirTable (files ++ [r]))).find (dirPart f.name) =
        (positions 0 (dirTable files)).find (dirPart f.name) := by
  have hdir : (if (splitPath r.name).1 = [] then [47] else (splitPath r.name).1) = dirPart r.name := rfl
  by_cases hmem : dirPart r.name ∈ dirTable files
  · obtain ⟨k, -, hfind⟩ := find_positions_of_mem hmem 0
    have htable : dirTable (files ++ [r]) = dirTable files := by
      simpa [dirTable] using firstOccurrences_append_of_mem (mem_firstOccurrences.mp hmem)
    refine ⟨k, ?_, by rw [htable, hfind, Nat.zero_add], fun f _ => by rw [htable]⟩
    simp only [PrefixMap.index, PrefixMap.ofTable, hdir, basePart, htable, hfind, Nat.zero_add]
  · have hfind := find_positions_of_not_mem hmem 0
    have htable : dirTable (files ++ [r]) = dirTable files ++ [dirPart r.name] := by
      simpa [dirTable] using firstOccurrences_append_of_not_mem (mt mem_firstOccurrences.mpr hmem)
    refine ⟨(dirTable files).length, ?_, ?_, fun f hf => ?_⟩
    · simp only [PrefixMap.index, PrefixMap.ofTable, hdir, basePart, htable, hfind,
        length_positions, GoMap.assign_of_find_none _ hfind, positions_append, Nat.zero_add]
    · rw [htable, positions_append, GoMap.find_append_of_none hfind]
      simp [GoMap.find_cons]
    · obtain ⟨k, -, hk⟩ := find_positions_of_mem (s := dirTable files)
        (mem_firstOccurrences.mpr (List.mem_map_of_mem (fun r : File => dirPart r.name) hf)) 0
      rw [htable, positions_append, GoMap.find_append_of_some hk, hk]

/-- One `Add` extends the index of the files so far to the index of one more file. -/
theorem FileIndex.add_ofFiles (files : List File) (r : File) :
    (FileIndex.ofFiles files).add r = FileIndex.ofFiles (files ++ [r]) := by
  obtain ⟨k, hindex, hnew, hold⟩ := PrefixMap.index_dirTable files r
  have hlsize : (if files = [] then none else some (files.map File.size)).getD [] =
      files.map File.size := by
    split_ifs with h <;> simp [h]
  simp only [FileIndex.add, FileIndex.ofFiles, hindex]
  simp only [List.map_append, List.map_cons, List.map_nil, hnew,
    Option.getD_some, hlsize, List.append_eq_nil, List.cons_ne_nil, and_false, if_false,
    List.sum_append, List.sum_cons, List.sum_nil, Nat.add_zero, uint64_ofNat_add]
  congr 2
  exact List.map_congr_left fun f hf => by rw [hold f hf]

/-- `Add`, file after file from `NewFileIndex`, builds the index of the files. -/
theorem add_run_eq_ofFiles (files : List File) :
    files.foldl FileIndex.add newFileIndex = FileIndex.ofFiles files := by
  induction files using List.reverseRecOn with
  | nil => rfl
  | append_singleton files r ih => rw [List.foldl_append, List.foldl_cons, List.foldl_nil, ih,
      FileIndex.add_ofFiles]

/-- What an index records of one file, across its columns. -/
structure FileEntry where
  path : List UInt8
  user : List UInt8
  group : List UInt8
  mode : UInt16
  mTime : UInt32
  linkTo : List UInt8
  digest : List UInt8
  flags : UInt32
  verify : UInt32
  size : UInt64
  deriving DecidableEq, Repr

/-- The `i`-th file of an index: the directory its directory index points to, followed by its
base name, and its entry in each other column; `none` when a column is too short. -/
def FileIndex.entry (f : FileIndex) (i : Nat) : Option FileEntry :=
  match f.dirIndexes[i]?, f.name[i]?, f.user[i]?, f.group[i]?, f.mode[i]?, f.mtime[i]?,
      f.linkto[i]?, f.digest[i]?, f.flags[i]?, f.verify[i]?, (f.lsize.getD [])[i]? with
  | some d, some base, some user, some group, some mode, some mTime, some linkTo, some digest,
      some flags, some verify, some size =>
    f.dirNames.s[d.toNat]?.map fun dir =>
      { path := dir ++ base, user, group, mode, mTime, linkTo, digest, flags, verify, size }
  | _, _, _, _, _, _, _, _, _, _, _ => none

/-- What the index records of a file, as `Add` stores it: its name with a `/` in front when it
has no directory, `root` for an empty owner or group, and the verify flags `^NoVerify`. -/
def File.entry (r : File) : FileEntry where
  path := if 47 ∈ r.name then r.name else 47 :: r.name
  user := if r.user = [] then rootName else r.user
  group := if r.group = [] then rootName else r.group
  mode := r.mode
  mTime := r.mTime
  linkTo := r.linkTo
  digest := r.digest
  flags := r.flags
  verify := ~~~r.noVerify
  size := r.size

theorem FileIndex.ofFiles_dirIndex (files : List File) {i : Nat} (hi : i < files.length) :
    ∃ k, (dirTable files)[k]? = some (dirPart files[i].name) ∧
      (FileIndex.ofFiles files).dirIndexes[i]? = some (UInt32.ofNat k) := by
  obtain ⟨k, hk, hfind⟩ := find_positions_of_mem (s := dirTable files)
    (mem_firstOccurrences.mpr (List.mem_map_of_mem (fun r : File => dirPart r.name)
      (List.getElem_mem hi))) 0
  refine ⟨k, hk, ?_⟩
  simp [FileIndex.ofFiles, hi, hfind]

/-- While the directory table has at most `2 ^ 32` entries, the index of the files reads back,
file by file, as the files. -/
theorem FileIndex.entry_ofFiles {files : List File} (hdirs : (dirTable files).length ≤ 2 ^ 32)
    {i : Nat} (hi : i < files.length) : (FileIndex.ofFiles files).entry i = some files[i].entry := by
  obtain ⟨k, hk, hdi⟩ := FileIndex.ofFiles_dirIndex files hi
  have hklt : k < 2 ^ 32 := lt_of_lt_of_le (List.getElem?_eq_some_iff.mp hk).1 hdirs
  have hfiles : files ≠ [] := List.ne_nil_of_length_pos (Nat.zero_lt_of_lt hi)
  rw [FileIndex.entry, hdi]
  simp only [FileIndex.ofFiles, List.getElem?_map, List.getElem?_eq_getElem hi, Option.map_some',
    hfiles, if_false, Option.getD_some, toNat_uint32_ofNat, Nat.mod_eq_of_lt hklt,
    PrefixMap.ofTable_s, hk, dirPart_append_basePart, File.entry, orDefault]

/-- After `Add` on each file in order from `NewFileIndex`: every column `Add` fills has one
entry per file; the directory table lists the directory parts in order of first use, each
once; the map binds each entry to its position and holds nothing else; and each file's
directory index is `uint32` of the position of its directory part, its base name beside it. -/
theorem add_run_layout (files : List File) :
    let idx := files.foldl FileIndex.add newFileIndex
    let n := files.length
    (idx.name.length = n ∧ idx.dirIndexes.length = n ∧ idx.user.length = n ∧
      idx.group.length = n ∧ idx.mode.length = n ∧ idx.mtime.length = n ∧
      idx.linkto.length = n ∧ idx.digest.length = n ∧ idx.flags.length = n ∧
      idx.verify.length = n ∧ (idx.lsize.getD []).length = n) ∧
    idx.dirNames.s = firstOccurrences (files.map fun r => dirPart r.name) ∧
    idx.dirNames.s.Nodup ∧
    (∀ k (hk : k < idx.dirNames.s.length), idx.dirNames.m.find idx.dirNames.s[k] = some k) ∧
    (∀ d, d ∉ idx.dirNames.s → idx.dirNames.m.find d = none) ∧
    idx.dirNames.m.length = idx.dirNames.s.length ∧
    ∀ i (hi : i < n), ∃ k, idx.dirNames.s[k]? = some (dirPart files[i].name) ∧
      idx.dirIndexes[i]? = some (UInt32.ofNat k) ∧ idx.name[i]? = some (basePart files[i].name) := by
  rw [add_run_eq_ofFiles]
  intro idx n
  have hlsize : ((if files = [] then none else some (files.map File.size)).getD []).length =
      files.length := by
    by_cases h : files = [] <;> simp [h]
  refine ⟨by simp [idx, n, FileIndex.ofFiles, hlsize], rfl, nodup_firstOccurrences _,
    fun k hk => by simpa using find_positions_getElem (nodup_firstOccurrences _) 0 hk,
    fun d hd => find_positions_of_not_mem hd 0, length_positions 0 _, fun i hi => ?_⟩
  obtain ⟨k, hk, hdi⟩ := FileIndex.ofFiles_dirIndex files hi
  exact ⟨k, hk, hdi, by simp [idx, FileIndex.ofFiles, hi]⟩

theorem dirTable_of_nodup {files : List File} (h : (files.map fun r => dirPart r.name).Nodup) :
    dirTable files = files.map fun r => dirPart r.name := by
  simp [dirTable, firstOccurrences, List.dedup_eq_self.mpr (List.nodup_reverse.mpr h)]

theorem FileIndex.dirIndexes_ofFiles_of_nodup {files : List File}
    (h : (files.map fun r => dirPart r.name).Nodup) :
    (FileIndex.ofFiles files).dirIndexes = (List.range files.length).map UInt32.ofNat := by
  apply List.ext_getElem (by simp [FileIndex.ofFiles])
  intro i h1 _
  have hi : i < (files.map fun r => dirPart r.name).length := by simpa [FileIndex.ofFiles] using h1
  have hfind := find_positions_getElem h 0 hi
  rw [List.getElem_map] at hfind
  simp [FileIndex.ofFiles, dirTable_of_nodup h, hfind]

/-- A short name for each number: its base-16 digits, least significant first, as the letters
`a` to `p`. -/
def hexName (k : Nat) : List UInt8 := (Nat.digits 16 k).map fun d => UInt8.ofNat (97 + d)

theorem hexName_toNat {k : Nat} {b : UInt8} (hb : b ∈ hexName k) :
    ∃ d < 16, b.toNat = 97 + d := by
  obtain ⟨d, hd, rfl⟩ := List.mem_map.mp hb
  have := Nat.digits_lt_base (by norm_num) hd
  exact ⟨d, this, by rw [toNat_uint8_ofNat]; omega⟩

theorem hexName_injective : Function.Injective hexName := by
  have hinv : ∀ k, Nat.ofDigits 16 ((hexName k).map fun b => b.toNat - 97) = k := fun k => by
    have hdigits : (hexName k).map (fun b => b.toNat - 97) = Nat.digits 16 k := by
      rw [hexName, List.map_map]
      refine (List.map_congr_left fun d hd => ?_).trans (List.map_id _)
      have := Nat.digits_lt_base (by norm_num) hd
      show (UInt8.ofNat (97 + d)).toNat - 97 = d
      rw [toNat_uint8_ofNat]
      omega
    rw [hdigits, Nat.ofDigits_digits]
  intro a b h
  rw [← hinv a, ← hinv b, h]

theorem dirPart_hexName (k : Nat) : dirPart (hexName k ++ [47, 98]) = hexName k ++ [47] := by
  have h47 : 47 ∉ hexName k := fun h => by
    obtain ⟨d, hd, h⟩ := hexName_toNat h
    have h47 : (47 : UInt8).toNat = 47 := rfl
    omega
  have hdrop : (hexName k).reverse.dropWhile (· ≠ 47) = [] :=
    List.dropWhile_eq_nil_iff.mpr fun b hb => by
      simpa using ne_of_mem_of_not_mem (List.mem_reverse.mp hb) h47
  simp [dirPart, splitPath, hdrop]

theorem add_dirIndexes_wrap :
    let files := (List.range (2 ^ 32 + 1)).map fun k : Nat =>
      ({ name := hexName k ++ [47, 98], user := [], group := [], mode := 0,
         linkTo := [], mTime := 0, digest := [], noVerify := 0, size := 0, flags := 0 } : File)
    let idx := files.foldl FileIndex.add newFileIndex
    idx.dirIndexes[2 ^ 32]? = some 0 ∧ idx.dirNames.s[0]? = some [47] ∧
      (files.map fun r => dirPart r.name)[2 ^ 32]? ≠ some [47] := by
  intro files idx
  have hdirs : files.map (fun r => dirPart r.name) =
      (List.range (2 ^ 32 + 1)).map fun k => hexName k ++ [47] := by
    simp [files, dirPart_hexName]
  have hnodup : (files.map fun r => dirPart r.name).Nodup := by
    rw [hdirs]
    exact (List.nodup_range _).map fun a b h => hexName_injective (List.append_cancel_right h)
  have hidx : idx = FileIndex.ofFiles files := add_run_eq_ofFiles files
  have hlast : 2 ^ 32 < 2 ^ 32 + 1 := Nat.lt_succ_self _
  rw [hidx]
  refine ⟨?_, ?_, ?_⟩
  · rw [FileIndex.dirIndexes_ofFiles_of_nodup hnodup]
    simp only [files, List.length_map, List.length_range, List.getElem?_map,
      List.getElem?_range hlast, Option.map_some', Option.some.injEq]
    exact UInt32.toNat.inj (by simp)
  · rw [FileIndex.ofFiles_dirNames, PrefixMap.ofTable_s, dirTable_of_nodup hnodup, hdirs]
    simp [hexName]
  · rw [hdirs]
    simp only [List.getElem?_map, List.getElem?_range hlast, Option.map_some', ne_eq,
      Option.some.injEq, List.append_left_eq_self]
    intro h
    exact absurd (hexName_injective (h.trans (by simp [hexName] : [] = hexName 0))) (by norm_num)

end GoRpm
