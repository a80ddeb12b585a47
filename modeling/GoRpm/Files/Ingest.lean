import GoRpm.Files.Add
import GoRpm.Package

/-!
Reading a file index back from a header. `FileIndexHeader` trusts the header it is given: on
headers `Next` accepts it can still panic or return columns of different lengths. On the
headers `Append` writes it gives back the very index `Add` built: the file-index tags are the
only ones it reads, each column comes back from its own tag, and the directory loop rebuilds
the map `Add` kept, since the table has no repeats.
-/

namespace GoRpm

/-- Three headers `Next` accepts: a `DIRNAMES` tag holding bytes makes `StringArray` dereference
a nil pointer, an empty `SIZE` vector makes `sz[0]` go out of range, and a lone `BASENAMES` tag
gives an index with one base name and no directory index or verify flags. -/
theorem fileIndexHeader_of_next_fails :
    (∃ hdr r, (Reader.ofBytes (HeaderPre.writeTo ⟨1, 1⟩ ++
        TagHeader.writeTo ⟨rpmtagDirnames, rpmBinType, 0, 1⟩ ++ [47])).next = .ok (hdr, r) ∧
      fileIndexHeader hdr = .error .nilDereference) ∧
    (∃ hdr r, (Reader.ofBytes (HeaderPre.writeTo ⟨1, 4⟩ ++
        TagHeader.writeTo ⟨rpmtagSize, rpmInt32Type, 0, 0⟩ ++ [0, 0, 0, 0])).next = .ok (hdr, r) ∧
      fileIndexHeader hdr = .error .indexOutOfRange) ∧
    (∃ hdr r idx, (Reader.ofBytes (HeaderPre.writeTo ⟨1, 2⟩ ++
        TagHeader.writeTo ⟨rpmtagBasenames, rpmStringArrayType, 0, 1⟩ ++ [97, 0])).next =
          .ok (hdr, r) ∧
      fileIndexHeader hdr = .ok idx ∧ idx.name = [[97]] ∧ idx.dirIndexes = [] ∧ idx.verify = []) :=
  ⟨⟨_, _, rfl, rfl⟩, ⟨_, _, rfl, rfl⟩, ⟨_, _, _, rfl, rfl, rfl, rfl, rfl⟩⟩

theorem AddCall.run_setRegion (c : AddCall) (hdr : Header) (tag : UInt32) :
    c.run (hdr.setRegion tag) = (c.run hdr).setRegion tag := by
  cases c <;> rfl

theorem foldl_run_setRegion (calls : List AddCall) (hdr : Header) (tag : UInt32) :
    calls.foldl (fun hdr (c : AddCall) => c.run hdr) (hdr.setRegion tag) =
      (calls.foldl (fun hdr (c : AddCall) => c.run hdr) hdr).setRegion tag := by
  induction calls generalizing hdr with
  | nil => rfl
  | cons c calls ih => rw [List.foldl_cons, AddCall.run_setRegion, ih]; rfl

/-- `Append` on a header built by `Add*` calls and `SetRegion` makes the header its calls and
`Append`'s own calls would make. -/
theorem FileIndex.append_build (idx : FileIndex) (calls : List AddCall) (region : Option UInt32) :
    idx.append (Header.build calls region) = Header.build (calls ++ idx.appendCalls) region := by
  cases region <;>
    simp [FileIndex.append, Header.build, List.foldl_append, foldl_run_setRegion]

theorem foldlM_ingest_erase : ∀ (ts : List Tag) (idx : FileIndex),
    (ts.map fun t => { t with offset := 0 }).foldlM FileIndex.ingest idx =
      ts.foldlM FileIndex.ingest idx
  | [], _ => rfl
  | t :: ts, idx => by
    simp only [List.map_cons, List.foldlM_cons, FileIndex.ingest_erase]
    cases idx.ingest t <;> simp [foldlM_ingest_erase ts]

theorem fileIndexHeader_build (calls : List AddCall) (region : Option UInt32) :
    fileIndexHeader (Header.build calls region) =
      (calls.map AddCall.tag).foldlM FileIndex.ingest newFileIndex := by
  have htags := foldl_run_tags_erase calls {}
  rw [List.map_nil, List.nil_append, ← Header.build_tags calls region] at htags
  rw [fileIndexHeader, ← htags, foldlM_ingest_erase]

theorem foldlM_ingest_skip : ∀ {ts : List Tag}, (∀ t ∈ ts, isFileIndexTag t.tag = false) →
    ∀ idx : FileIndex, ts.foldlM FileIndex.ingest idx = .ok idx
  | [], _, _ => rfl
  | t :: ts, h, idx => by
    rw [List.foldlM_cons, FileIndex.ingest_of_not_fileIndexTag idx (h t (List.mem_cons_self t ts))]
    exact foldlM_ingest_skip (fun u hu => h u (List.mem_cons_of_mem t hu)) idx

theorem bindPositions_positions : ∀ (pre s : List (List UInt8)), (pre ++ s).Nodup →
    bindPositions (positions 0 pre) pre.length s = positions 0 (pre ++ s)
  | pre, [], _ => by simp [bindPositions]
  | pre, v :: s, h => by
    have hv : v ∉ pre := fun hv => (List.nodup_append.mp h).2.2 hv (List.mem_cons_self v s)
    have hfind := find_positions_of_not_mem hv 0
    have hnext := bindPositions_positions (pre ++ [v]) s (by simpa using h)
    rw [positions_append, List.length_append, List.length_singleton, Nat.zero_add,
      List.append_assoc, List.singleton_append] at hnext
    simp only [bindPositions, hfind, Option.isSome_none, Bool.false_eq_true, if_false,
      GoMap.assign_of_find_none _ hfind, hnext]

/-- The tags `Append` writes for the index of a non-empty list of files read back as that
index. -/
theorem FileIndex.ingest_appendCalls {files : List File} (hfiles : files ≠ []) :
    ((FileIndex.ofFiles files).appendCalls.map AddCall.tag).foldlM FileIndex.ingest
      newFileIndex = .ok (FileIndex.ofFiles files) := by
  have hname : (FileIndex.ofFiles files).name.length ≠ 0 := by simp [FileIndex.ofFiles, hfiles]
  have hlsize : (FileIndex.ofFiles files).lsize = some (files.map File.size) := by
    simp [FileIndex.ofFiles, hfiles]
  have hmap := bindPositions_positions [] (dirTable files) (nodup_firstOccurrences _)
  simp only [List.nil_append, positions, List.length_nil] at hmap
  simp [FileIndex.appendCalls, hname, hlsize, AddCall.tag, FileIndex.ingest, Tag.stringArray,
    Tag.int16, Tag.int32, Tag.int64, assertShape, sliceAt, rpmtagDirnames, rpmtagBasenames,
    rpmtagFileusername, rpmtagFilegroupname, rpmtagFilelinktos, rpmtagFiledigests,
    rpmtagDirindexes, rpmtagFiledevices, rpmtagFileinodes, rpmtagFilemtimes, rpmtagFileflags,
    rpmtagFileverifyflags, rpmtagFilemodes, rpmtagFilesizes, rpmtagLongfilesizes, rpmtagSize,
    rpmtagLongsize, newFileIndex, newPrefixMap, hmap]
  rw [← hlsize]
  rfl

/-- No string field of a file holds a NUL byte, which `tagString.WriteTo` would pass through and
`ReadFrom` would read as a terminator. -/
structure File.NulFree (r : File) : Prop where
  name : 0 ∉ r.name
  user : 0 ∉ r.user
  group : 0 ∉ r.group
  linkTo : 0 ∉ r.linkTo
  digest : 0 ∉ r.digest

theorem AddCall.admissible_addStringArray {id : UInt32} {data : List (List UInt8)}
    (hid : isRegionTag id = false) (hne : data ≠ []) (hnul : ∀ s ∈ data, 0 ∉ s) :
    (AddCall.addStringArray id data).Admissible :=
  ⟨lt_of_lt_of_le (List.length_pos.mpr hne) (length_le_len_string data), hnul, hid⟩

theorem not_mem_orDefault {a : List UInt8} (ha : 0 ∉ a) : 0 ∉ orDefault a [] rootName := by
  unfold orDefault; split_ifs <;> simp_all [rootName]

/-- The calls `Append` makes for a non-empty list of NUL-free files are admissible: every value
is non-empty, no string holds a NUL, and no id is a region id. -/
theorem FileIndex.appendCalls_admissible {files : List File} (hfiles : files ≠ [])
    (hnul : ∀ r ∈ files, r.NulFree) : ∀ c ∈ (FileIndex.ofFiles files).appendCalls, c.Admissible := by
  obtain ⟨f, hf⟩ := List.exists_mem_of_ne_nil files hfiles
  have hname : (FileIndex.ofFiles files).name.length ≠ 0 := by simp [FileIndex.ofFiles, hfiles]
  have hlsize : (FileIndex.ofFiles files).lsize = some (files.map File.size) := by
    simp [FileIndex.ofFiles, hfiles]
  have hdirs : dirTable files ≠ [] := List.ne_nil_of_mem
    (mem_firstOccurrences.mpr (List.mem_map_of_mem (fun r : File => dirPart r.name) hf))
  have hdirnul : ∀ s ∈ dirTable files, 0 ∉ s := by
    intro s hs h0
    obtain ⟨r, hr, rfl⟩ := List.mem_map.mp (mem_firstOccurrences.mp hs)
    rcases dirPart_subset r.name 0 h0 with h | h
    · exact (hnul r hr).name h
    · exact absurd h (by decide)
  intro c hc
  have hcol : ∀ {get : File → List UInt8}, (∀ r ∈ files, 0 ∉ get r) → ∀ s ∈ files.map get, 0 ∉ s := by
    intro get hget s hs
    obtain ⟨r, hr, rfl⟩ := List.mem_map.mp hs
    exact hget r hr
  have hne : ∀ {α : Type} (get : File → α), files.map get ≠ [] := fun get => by simp [hfiles]
  simp only [FileIndex.appendCalls, hname, if_false, hlsize, List.cons_append, List.nil_append,
    List.singleton_append, List.mem_cons, List.mem_singleton, List.not_mem_nil, or_false] at hc
  rcases hc with rfl | rfl | rfl | rfl | rfl | rfl | rfl | rfl | rfl | rfl | rfl | rfl | rfl
  · exact AddCall.admissible_addStringArray (by decide) hdirs hdirnul
  · exact AddCall.admissible_addStringArray (by decide) (hne _) (hcol fun r hr h0 =>
      (hnul r hr).name (basePart_subset r.name 0 h0))
  · exact AddCall.admissible_addStringArray (by decide) (hne _) (hcol fun r hr =>
      not_mem_orDefault (hnul r hr).user)
  · exact AddCall.admissible_addStringArray (by decide) (hne _) (hcol fun r hr =>
      not_mem_orDefault (hnul r hr).group)
  · exact AddCall.admissible_addStringArray (by decide) (hne _) (hcol fun r hr => (hnul r hr).linkTo)
  · exact AddCall.admissible_addStringArray (by decide) (hne _) (hcol fun r hr => (hnul r hr).digest)
  all_goals exact ⟨by simp [AddCall.tag, TagData.len, FileIndex.ofFiles, List.length_pos, hfiles],
    trivial, rfl⟩

/-- Files added in order to a fresh index, the index appended to a header built by admissible
calls on ids `FileIndexHeader` does not read: `WriteTo` writes the header's image, `Next` reads
the image back as the same header, `FileIndexHeader` gives back the very index `Add` built, and
that index reads, file by file, as the files, with the sum of their sizes as `LONGSIZE`. -/
theorem fileIndexHeader_read_back (files : List File) (hfiles : files ≠ [])
    (hnul : ∀ r ∈ files, r.NulFree) (calls : List AddCall) (region : Option UInt32)
    (hadm : ∀ c ∈ calls, c.Admissible) (hids : ∀ c ∈ calls, isFileIndexTag c.tag.tag = false)
    (hreg : ∀ id ∈ region, isRegionTag id = true)
    (hsize : (HeaderCalls.mk (calls ++ (files.foldl FileIndex.add newFileIndex).appendCalls)
      region).imageSize < 2 ^ 32) :
    let idx := files.foldl FileIndex.add newFileIndex
    let hdr := idx.append (Header.build calls region)
    hdr.writeTo = .ok (hdr.image, hdr.image.length, hdr) ∧
      (Reader.ofBytes hdr.image).next = .ok (hdr, { rest := [], off := hdr.image.length }) ∧
      fileIndexHeader hdr = .ok idx ∧
      (∀ i (hi : i < files.length), idx.entry i = some files[i].entry) ∧
      idx.rpmlsize = UInt64.ofNat (files.map fun r => r.size.toNat).sum := by
  intro idx hdr
  have hidx : idx = FileIndex.ofFiles files := add_run_eq_ofFiles files
  let x : HeaderCalls := ⟨calls ++ idx.appendCalls, region⟩
  have hbuild : hdr = x.build := FileIndex.append_build idx calls region
  have hdirc : AddCall.addStringArray rpmtagDirnames (dirTable files) ∈ x.calls := by
    have hname : (FileIndex.ofFiles files).name.length ≠ 0 := by simp [FileIndex.ofFiles, hfiles]
    simp [x, hidx, FileIndex.appendCalls, hname]
  have hdirs : (dirTable files).length < 2 ^ 32 := by
    have hlen : (TagData.string (dirTable files)).len ≤ placeEnd 0 (x.calls.map AddCall.tag) :=
      len_le_placeEnd (List.mem_map_of_mem AddCall.tag hdirc)
    have hlt : x.imageSize < 2 ^ 32 := hsize
    have := length_le_len_string (dirTable files)
    unfold HeaderCalls.imageSize at hlt
    omega
  have hx : x.Admissible := ⟨List.ne_nil_of_mem hdirc, fun c hc => (List.mem_append.mp hc).elim
    (hadm c) (hidx ▸ FileIndex.appendCalls_admissible hfiles hnul c), hreg, hsize⟩
  have hsound := hx.sound
  rw [hbuild]
  refine ⟨hx.writeTo_build, ?_, ?_, fun i hi => hidx ▸ FileIndex.entry_ofFiles hdirs.le hi,
    by rw [hidx]; rfl⟩
  · rw [@Reader.next_image x.build hsound (Reader.ofBytes x.build.image) rfl []
      (List.append_nil _).symm, hsound.length_image]
    simp [Reader.ofBytes]
  · have hskip : (calls.map AddCall.tag).foldlM FileIndex.ingest newFileIndex = .ok newFileIndex :=
      foldlM_ingest_skip (fun t ht => by
        obtain ⟨c, hc, rfl⟩ := List.mem_map.mp ht
        exact hids c hc) newFileIndex
    rw [HeaderCalls.build, fileIndexHeader_build, List.map_append, List.foldlM_append, hskip,
      ok_bind, hidx, FileIndex.ingest_appendCalls hfiles]

theorem fileIndexHeader_read_back_sh :
    let files : List File :=
      [{ name := [47, 98, 105, 110, 47, 115, 104], user := [], group := [], mode := 33261,
         linkTo := [], mTime := 0, digest := [], noVerify := 0, size := 0, flags := 0 }]
    let idx := files.foldl FileIndex.add newFileIndex
    let hdr := idx.append (Header.build [] none)
    hdr.writeTo = .ok (hdr.image, hdr.image.length, hdr) ∧
      (Reader.ofBytes hdr.image).next = .ok (hdr, { rest := [], off := hdr.image.length }) ∧
      fileIndexHeader hdr = .ok idx ∧
      (∀ i (hi : i < files.length), idx.entry i = some files[i].entry) ∧
      idx.rpmlsize = UInt64.ofNat (files.map fun r => r.size.toNat).sum :=
  fileIndexHeader_read_back _ (List.cons_ne_nil _ _)
    (fun r hr => by
      rw [List.mem_singleton.mp hr]
      exact ⟨by decide, by decide, by decide, by decide, by decide⟩)
    [] none (fun c hc => absurd hc (List.not_mem_nil c)) (fun c hc => absurd hc (List.not_mem_nil c))
    (fun _ hid => by cases hid) (by decide)

end GoRpm
