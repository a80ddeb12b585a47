import GoRpm.Files.Ingest

/-!
The package metadata of `tar2rpm` (`cmd/tar2rpm`): the `Config` a configuration file fills, and
the `Add*` calls `Config.append` makes on the payload header. Each non-empty string field is one
string tag, a scriptlet adds its text and its program, and the provides and the requires become
three parallel arrays of flags, names and versions, each entry split by `senseFlags` at its first
comparison operator.

The duplicate check of `provides` and `requires` looks the whole entry up among the names kept so
far, but records only the entry's name. An entry with an operator is never found there, so every
versioned entry is kept, duplicates included, and a bare name is dropped only when an earlier
kept entry has that name. The package's own `name=version-release`, which `provides` appends
last, is therefore always the last provide.
-/

namespace GoRpm.Tar2rpm

/-- Modelled from the spec: the ids of the tags `tar2rpm` adds and the flag values it uses (the
registry `tags.go` is not in the source tree), with the numbers RPM's registry gives them. -/
def rpmtagHeaderi18ntable : UInt32 := 100
def rpmsigtagSha256 : UInt32 := 273
def rpmtagName : UInt32 := 1000
def rpmtagVersion : UInt32 := 1001
def rpmtagRelease : UInt32 := 1002
def rpmtagSummary : UInt32 := 1004
def rpmtagDescription : UInt32 := 1005
def rpmtagBuildtime : UInt32 := 1006
def rpmtagVendor : UInt32 := 1011
def rpmtagLicense : UInt32 := 1014
def rpmtagPackager : UInt32 := 1015
def rpmtagUrl : UInt32 := 1020
def rpmtagOs : UInt32 := 1021
def rpmtagArch : UInt32 := 1022
def rpmtagPrein : UInt32 := 1023
def rpmtagPostin : UInt32 := 1024
def rpmtagProvidename : UInt32 := 1047
def rpmtagRequireflags : UInt32 := 1048
def rpmtagRequirename : UInt32 := 1049
def rpmtagRequireversion : UInt32 := 1050
def rpmtagPreinprog : UInt32 := 1085
def rpmtagPostinprog : UInt32 := 1086
def rpmtagProvideflags : UInt32 := 1112
def rpmtagProvideversion : UInt32 := 1113
def rpmtagPayloadformat : UInt32 := 1124
def rpmtagFiledigestalgo : UInt32 := 5011
def rpmtagBugurl : UInt32 := 5012
def rpmtagEncoding : UInt32 := 5062
def rpmtagPayloaddigest : UInt32 := 5092
def rpmtagPayloaddigestalgo : UInt32 := 5093
def rpmsenseAny : UInt32 := 0
def rpmsenseLess : UInt32 := 2
def rpmsenseGreater : UInt32 := 4
def rpmsenseEqual : UInt32 := 8
def pgphashalgoSha256 : UInt32 := 8

/-- `script`: a scriptlet's text and the program that runs it. -/
structure Script where
  data : List UInt8 := []
  prog : List UInt8 := []
  deriving DecidableEq, Repr

/-- `Config`, its fields Go's zero values until a configuration file sets them. -/
structure Config where
  name : List UInt8 := []
  version : List UInt8 := []
  release : List UInt8 := []
  arch : List UInt8 := []
  license : List UInt8 := []
  url : List UInt8 := []
  bugURL : List UInt8 := []
  packager : List UInt8 := []
  vendor : List UInt8 := []
  summary : List UInt8 := []
  description : List UInt8 := []
  provides : List (List UInt8) := []
  requires : List (List UInt8) := []
  preInstall : Script := {}
  postInstall : Script := {}
  deriving DecidableEq, Repr

/-- The configuration `main` starts from: `package`, version `1`, release `1`, `noarch`. -/
def defaultConfig : Config :=
  { name := [112, 97, 99, 107, 97, 103, 101], version := [49], release := [49],
    arch := [110, 111, 97, 114, 99, 104] }

/-- `sense`: a dependency's name, version and comparison flags. -/
structure Sense where
  name : List UInt8
  version : List UInt8 := []
  flags : UInt32 := 0
  deriving DecidableEq, Repr

/-- The `case`s of the `switch` in `senseFlags`: the flag of `<`, `>` and `=`. -/
def senseOp (v : UInt8) : Option UInt32 :=
  if v = 60 then some rpmsenseLess
  else if v = 62 then some rpmsenseGreater
  else if v = 61 then some rpmsenseEqual
  else none

/-- A byte `senseFlags` reads as an operator, one of `<>=`. -/
def isOp (b : UInt8) : Bool := (senseOp b).isSome

/-- The loop of `senseFlags` over `value[i:]`: each operator or-ed into the flags, and at the
first other byte the rest of the value as the version. The loop ranges over runes, but only the
ASCII operators match, so the first other rune starts at the first other byte. -/
def senseRun (r : Sense) : List UInt8 → Sense
  | [] => r
  | v :: rest =>
    match senseOp v with
    | some f => senseRun { r with flags := r.flags ||| f } rest
    | none => { r with version := v :: rest }

/-- `senseFlags`: the value split at its first `<`, `>` or `=` (`strings.IndexAny`); a value
without one is a bare name with `RPMSENSE_ANY`. -/
def senseFlags (value : List UInt8) : Sense :=
  match value.findIdx? isOp with
  | none => { name := value, flags := rpmsenseAny }
  | some i => senseRun { name := value.take i } (value.drop i)

/-- The flags of a run of operators, or-ed onto `f`. -/
def opFlags (f : UInt32) (ops : List UInt8) : UInt32 :=
  ops.foldl (fun f b => f ||| (senseOp b).getD 0) f

theorem senseRun_eq (r : Sense) (hr : r.version = []) : ∀ l : List UInt8,
    senseRun r l = { r with flags := opFlags r.flags (l.takeWhile isOp), version := l.dropWhile isOp }
  | [] => by cases r; subst hr; rfl
  | v :: rest => by
    cases h : senseOp v with
    | none => simp [senseRun, h, isOp, opFlags]
    | some f =>
      rw [senseRun, h]
      simp only [senseRun_eq { r with flags := r.flags ||| f } hr rest, List.takeWhile_cons, List.dropWhile_cons, isOp, h,
        Option.isSome_some, if_true, opFlags, List.foldl_cons, Option.getD_some]

theorem findIdx?_eq_some {p : UInt8 → Bool} : ∀ {l : List UInt8} {i : Nat}, l.findIdx? p = some i →
    (∀ b ∈ l.take i, p b = false) ∧ ∃ b rest, l.drop i = b :: rest ∧ p b = true
  | [], _, h => by simp at h
  | b :: l, i, h => by
    by_cases hb : p b
    · simp only [List.findIdx?_cons, hb, if_true, Option.some.injEq] at h
      subst h
      exact ⟨by simp, b, l, rfl, hb⟩
    · simp only [List.findIdx?_cons, hb, if_false, Bool.false_eq_true] at h
      obtain ⟨j, hj, rfl⟩ := Option.map_eq_some'.mp (by simpa [List.findIdx?_succ] using h)
      obtain ⟨htake, hdrop⟩ := findIdx?_eq_some hj
      exact ⟨by simpa [hb] using htake, by simpa using hdrop⟩

/-- `senseFlags` splits every value into a name without operators, the run of operators after
it, whose flags it ors together, and the rest, which does not start with an operator, as the
version. -/
theorem senseFlags_split (value : List UInt8) :
    ∃ ops, value = (senseFlags value).name ++ ops ++ (senseFlags value).version ∧
      (∀ b ∈ (senseFlags value).name, isOp b = false) ∧ (∀ b ∈ ops, isOp b = true) ∧
      (∀ b ∈ (senseFlags value).version.head?, isOp b = false) ∧
      (senseFlags value).flags = opFlags 0 ops ∧ (ops = [] ↔ ∀ b ∈ value, isOp b = false) := by
  unfold senseFlags
  split
  case h_1 h =>
    have hnone := List.findIdx?_eq_none_iff.mp h
    exact ⟨[], by simp, hnone, by simp, by simp, rfl, iff_of_true rfl hnone⟩
  case h_2 i h =>
    obtain ⟨htake, b, rest, hdrop, hb⟩ := findIdx?_eq_some h
    rw [senseRun_eq _ rfl]
    refine ⟨(value.drop i).takeWhile isOp, ?_, htake, fun b hb => List.mem_takeWhile_imp hb, ?_,
      rfl, ?_⟩
    · simp only [List.append_assoc, List.takeWhile_append_dropWhile, List.take_append_drop]
    · intro c hc
      have := List.head?_dropWhile_not isOp (value.drop i)
      rwa [Option.mem_def.mp hc] at this
    · rw [hdrop]
      simp only [List.takeWhile_cons, show isOp b = true from hb, if_true, reduceCtorEq, false_iff,
        not_forall, Bool.not_eq_false, exists_prop]
      exact ⟨b, List.mem_of_mem_drop (hdrop ▸ List.mem_cons_self b rest), hb⟩

/-- The split read backwards: a name without operators, a non-empty run of operators and a
version that does not start with one are split back into that name and version, with the
operators' flags. -/
theorem senseFlags_append {name ops version : List UInt8} (hname : ∀ b ∈ name, isOp b = false)
    (hops : ∀ b ∈ ops, isOp b = true) (hne : ops ≠ [])
    (hversion : ∀ b ∈ version.head?, isOp b = false) :
    senseFlags (name ++ ops ++ version) = { name, version, flags := opFlags 0 ops } := by
  obtain ⟨o, os, rfl⟩ := List.exists_cons_of_ne_nil hne
  have hfind : (name ++ (o :: os ++ version)).findIdx? isOp = some name.length := by
    rw [List.findIdx?_append, List.findIdx?_eq_none_iff.mpr hname]
    simp [List.findIdx?_cons, hops o (List.mem_cons_self o os)]
  have htake : ((o :: os) ++ version).takeWhile isOp = o :: os := by
    rw [List.takeWhile_append_of_pos hops]
    cases version with
    | nil => simp
    | cons v vs => simp [List.takeWhile_cons, hversion v rfl]
  have hdrop : ((o :: os) ++ version).dropWhile isOp = version := by
    rw [List.dropWhile_append_of_pos hops]
    cases version with
    | nil => rfl
    | cons v vs => simp [List.dropWhile_cons, hversion v rfl]
  rw [List.append_assoc]
  simp only [senseFlags, hfind, List.take_left, List.drop_left]
  rw [senseRun_eq _ rfl, htake, hdrop]

/-- One pass of the loop of `provides` and `requires`: an entry found in the set `pm` is
skipped; otherwise its sense is kept, and its name goes into the set. -/
def senseStep (acc : List (List UInt8) × List Sense) (p : List UInt8) :
    List (List UInt8) × List Sense :=
  if p ∈ acc.1 then acc else (acc.1 ++ [(senseFlags p).name], acc.2 ++ [senseFlags p])

/-- The loop of `provides` and `requires`: the set `pm` and the senses kept, in order. -/
def senseTable (ps : List (List UInt8)) : List (List UInt8) × List Sense :=
  ps.foldl senseStep ([], [])

/-- The three arrays `provides` and `requires` hand to the header: the flags, names and
versions of the senses kept. -/
def senseArrays (flagsTag nameTag versionTag : UInt32) (ss : List Sense) : List AddCall :=
  [.addInt32 flagsTag (ss.map Sense.flags), .addStringArray nameTag (ss.map Sense.name),
    .addStringArray versionTag (ss.map Sense.version)]

/-- The entry `provides` appends for the package itself, `name=version-release`. -/
def Config.selfProvide (c : Config) : List UInt8 := c.name ++ [61] ++ c.version ++ [45] ++ c.release

/-- `Config.provides`: the package's own entry appended to the provides (the `Config` keeps
it, which `main` never reads again), then the arrays. -/
def Config.provideCalls (c : Config) : List AddCall :=
  senseArrays rpmtagProvideflags rpmtagProvidename rpmtagProvideversion
    (senseTable (c.provides ++ [c.selfProvide])).2

/-- `Config.requires`: nothing without requires, otherwise the arrays. -/
def Config.requireCalls (c : Config) : List AddCall :=
  if c.requires = [] then [] else
    senseArrays rpmtagRequireflags rpmtagRequirename rpmtagRequireversion (senseTable c.requires).2

theorem senseTable_append (ps : List (List UInt8)) (p : List UInt8) :
    senseTable (ps ++ [p]) = senseStep (senseTable ps) p := by
  rw [senseTable, List.foldl_append, List.foldl_cons, List.foldl_nil, ← senseTable]

theorem senseTable_fst (ps : List (List UInt8)) :
    (senseTable ps).1 = (senseTable ps).2.map Sense.name := by
  induction ps using List.reverseRecOn with
  | nil => rfl
  | append_singleton ps p ih =>
    rw [senseTable_append, senseStep]
    split_ifs <;> simp [ih]

/-- One more entry is kept unless it is the name of a sense kept before. -/
theorem senseTable_snd_append (ps : List (List UInt8)) (p : List UInt8) :
    (senseTable (ps ++ [p])).2 = (senseTable ps).2 ++
      if p ∈ (senseTable ps).2.map Sense.name then [] else [senseFlags p] := by
  rw [senseTable_append, senseStep, senseTable_fst]
  split_ifs <;> simp

theorem senseTable_name_opFree (ps : List (List UInt8)) :
    ∀ s ∈ (senseTable ps).2, ∀ b ∈ s.name, isOp b = false := by
  induction ps using List.reverseRecOn with
  | nil => simp [senseTable]
  | append_singleton ps p ih =>
    intro s hs
    rw [senseTable_snd_append] at hs
    rcases List.mem_append.mp hs with hs | hs
    · exact ih s hs
    · split_ifs at hs
      · simp at hs
      · rw [List.mem_singleton.mp hs]
        exact (senseFlags_split p).choose_spec.2.1

theorem senseTable_snd_append_op (ps : List (List UInt8)) {p : List UInt8}
    (hp : p.any isOp = true) : (senseTable (ps ++ [p])).2 = (senseTable ps).2 ++ [senseFlags p] := by
  obtain ⟨b, hb, hop⟩ := List.any_eq_true.mp hp
  rw [senseTable_snd_append, if_neg fun hmem => ?_]
  obtain ⟨s, hs, rfl⟩ := List.mem_map.mp hmem
  simp [senseTable_name_opFree ps s hs b hb] at hop

theorem uint32_or_eq_zero {x y : UInt32} (h : x ||| y = 0) : x = 0 ∧ y = 0 := by
  have hn : x.toNat ||| y.toNat = 0 :=
    (BitVec.toNat_or x.toBitVec y.toBitVec).symm.trans (congrArg UInt32.toNat h)
  have hbits : ∀ i, x.toNat.testBit i = false ∧ y.toNat.testBit i = false := fun i => by
    simpa using congrArg (Nat.testBit · i) hn
  exact ⟨UInt32.toNat.inj (Nat.zero_of_testBit_eq_false fun i => (hbits i).1),
    UInt32.toNat.inj (Nat.zero_of_testBit_eq_false fun i => (hbits i).2)⟩

theorem opFlags_ne_zero {f : UInt32} (hf : f ≠ 0) : ∀ ops : List UInt8, opFlags f ops ≠ 0
  | [] => hf
  | _ :: ops => opFlags_ne_zero (fun h => hf (uint32_or_eq_zero h).1) ops

theorem senseFlags_flags_eq_any (p : List UInt8) :
    (senseFlags p).flags = rpmsenseAny ↔ p.any isOp = false := by
  obtain ⟨ops, -, -, hops, -, hflags, hnil⟩ := senseFlags_split p
  rw [hflags, Bool.eq_false_iff, ne_eq, List.any_eq_true, not_exists]
  simp only [not_and, Bool.not_eq_true]
  rw [← hnil]
  constructor
  · intro h0
    by_contra hne
    obtain ⟨o, os, rfl⟩ := List.exists_cons_of_ne_nil hne
    have hop : senseOp o ≠ none := by simpa [isOp, Option.isSome_iff_ne_none] using hops o (List.mem_cons_self o os)
    have hflag : (senseOp o).getD 0 ≠ 0 := by
      unfold senseOp at hop ⊢
      split_ifs at hop ⊢ <;> simp_all [rpmsenseLess, rpmsenseGreater, rpmsenseEqual]
    exact opFlags_ne_zero (fun h => hflag (uint32_or_eq_zero h).2) os h0
  · rintro rfl
    rfl

/-- The duplicate check of `provides` and `requires` never drops an entry with an operator: the
versioned senses kept are those of the versioned entries, in order, duplicates included. A bare
name is kept only when no sense kept before it has that name. -/
theorem senseTable_dedup (ps : List (List UInt8)) :
    (senseTable ps).2.filter (fun s => s.flags ≠ rpmsenseAny) =
        (ps.filter fun p => p.any isOp).map senseFlags ∧
      (senseTable ps).2.Pairwise fun s t => t.flags = rpmsenseAny → s.name ≠ t.name := by
  induction ps using List.reverseRecOn with
  | nil => exact ⟨rfl, List.Pairwise.nil⟩
  | append_singleton ps p ih =>
    obtain ⟨hver, hpair⟩ := ih
    by_cases hp : p.any isOp = true
    · have hflags : (senseFlags p).flags ≠ rpmsenseAny := fun h => by
        simp [(senseFlags_flags_eq_any p).mp h] at hp
      rw [senseTable_snd_append_op ps hp]
      refine ⟨?_, List.pairwise_append.mpr ⟨hpair, List.pairwise_singleton _ _,
        fun _ _ t ht hany => absurd (List.mem_singleton.mp ht ▸ hany) hflags⟩⟩
      rw [List.filter_append, hver, List.filter_append, List.map_append]
      simp [hp, hflags]
    · have hpf : p.any isOp = false := by simpa using hp
      have hbare : (senseFlags p).flags = rpmsenseAny := (senseFlags_flags_eq_any p).mpr hpf
      have hname : (senseFlags p).name = p := by
        unfold senseFlags
        rw [List.findIdx?_eq_none_iff.mpr (by simpa [List.any_eq_false] using hp)]
      rw [senseTable_snd_append]
      split_ifs with hmem
      · refine ⟨?_, by simpa using hpair⟩
        rw [List.append_nil, hver, List.filter_append]
        simp [hpf]
      · refine ⟨?_, List.pairwise_append.mpr ⟨hpair, List.pairwise_singleton _ _, ?_⟩⟩
        · rw [List.filter_append, hver, List.filter_append, List.map_append]
          simp [hpf, hbare]
        · intro s hs t ht _ heq
          rw [List.mem_singleton.mp ht, hname] at heq
          exact hmem (heq ▸ List.mem_map_of_mem Sense.name hs)

/-- The package always provides itself: whatever the provides, `provides` ends its arrays with
the package's own `name=version-release`, split at the `=`, when the name has no operator and
the version does not start with one. -/
theorem Config.provideCalls_self (c : Config) (hname : ∀ b ∈ c.name, isOp b = false)
    (hversion : ∀ b ∈ c.version.head?, isOp b = false) :
    ∃ ss : List Sense, c.provideCalls =
      senseArrays rpmtagProvideflags rpmtagProvidename rpmtagProvideversion
        (ss ++ [{ name := c.name, version := c.version ++ [45] ++ c.release,
                  flags := rpmsenseEqual }]) := by
  have hop : c.selfProvide.any isOp = true :=
    List.any_eq_true.mpr ⟨61, by simp [Config.selfProvide], rfl⟩
  have hsplit : senseFlags c.selfProvide =
      { name := c.name, version := c.version ++ [45] ++ c.release, flags := rpmsenseEqual } := by
    have hhead : ∀ b ∈ (c.version ++ [45] ++ c.release).head?, isOp b = false := by
      cases hv : c.version with
      | nil => simp [isOp, senseOp]
      | cons v vs => simpa [hv] using hversion
    rw [show c.selfProvide = c.name ++ [61] ++ (c.version ++ [45] ++ c.release) by
      simp [Config.selfProvide]]
    rw [senseFlags_append hname (by simp [isOp, senseOp]) (List.cons_ne_nil _ _) hhead]
    rfl
  exact ⟨_, by rw [Config.provideCalls, senseTable_snd_append_op _ hop, hsplit]⟩

theorem Config.provideCalls_self_default :
    (∀ b ∈ defaultConfig.name, isOp b = false) ∧ (∀ b ∈ defaultConfig.version.head?, isOp b = false) ∧
    ∃ ss : List Sense, defaultConfig.provideCalls =
      senseArrays rpmtagProvideflags rpmtagProvidename rpmtagProvideversion
        (ss ++ [{ name := defaultConfig.name,
                  version := defaultConfig.version ++ [45] ++ defaultConfig.release,
                  flags := rpmsenseEqual }]) :=
  ⟨by decide, by decide, Config.provideCalls_self defaultConfig (by decide) (by decide)⟩

/-- `add(hdr, t, v)`: a string tag, unless the value is empty. -/
def add (t : UInt32) (v : List UInt8) : List AddCall := if v = [] then [] else [.addString t v]

/-- A scriptlet's calls in `Config.append`: its text and its program, when it has text. -/
def scriptCalls (dataTag progTag : UInt32) (s : Script) : List AddCall :=
  if s.data = [] then [] else [.addString dataTag s.data, .addString progTag s.prog]

/-- `Config.append`: the string fields in order, the two scriptlets, the provides, the
requires. -/
def Config.append (c : Config) : List AddCall :=
  add rpmtagName c.name ++ add rpmtagVersion c.version ++ add rpmtagRelease c.release ++
    add rpmtagArch c.arch ++ add rpmtagLicense c.license ++ add rpmtagUrl c.url ++
    add rpmtagBugurl c.bugURL ++ add rpmtagPackager c.packager ++ add rpmtagVendor c.vendor ++
    add rpmtagSummary c.summary ++ add rpmtagDescription c.description ++
    scriptCalls rpmtagPrein rpmtagPreinprog c.preInstall ++
    scriptCalls rpmtagPostin rpmtagPostinprog c.postInstall ++ c.provideCalls ++ c.requireCalls

/-- Every string of a configuration. -/
def Config.strings (c : Config) : List (List UInt8) :=
  [c.name, c.version, c.release, c.arch, c.license, c.url, c.bugURL, c.packager, c.vendor,
    c.summary, c.description, c.preInstall.data, c.preInstall.prog, c.postInstall.data,
    c.postInstall.prog] ++ c.provides ++ c.requires

theorem AddCall.admissible_addString {t : UInt32} {v : List UInt8} (ht : isRegionTag t = false)
    (hv : 0 ∉ v) : (AddCall.addString t v).Admissible :=
  ⟨by simp [AddCall.tag, TagData.len], by simpa [AddCall.tag, TagData.NulFree] using hv, ht⟩

theorem mem_senseTable {ps : List (List UInt8)} {s : Sense} (hs : s ∈ (senseTable ps).2) :
    ∃ p ∈ ps, s = senseFlags p := by
  induction ps using List.reverseRecOn with
  | nil => simp [senseTable] at hs
  | append_singleton ps p ih =>
    rw [senseTable_snd_append] at hs
    rcases List.mem_append.mp hs with hs | hs
    · obtain ⟨q, hq, rfl⟩ := ih hs
      exact ⟨q, List.mem_append_left _ hq, rfl⟩
    · split_ifs at hs
      · simp at hs
      · exact ⟨p, by simp, List.mem_singleton.mp hs⟩

theorem senseTable_ne_nil : ∀ {ps : List (List UInt8)}, ps ≠ [] → (senseTable ps).2 ≠ [] := by
  intro ps hps
  induction ps using List.reverseRecOn with
  | nil => exact absurd rfl hps
  | append_singleton ps p ih =>
    rw [senseTable_snd_append]
    by_cases h : ps = []
    · subst h; simp [senseTable, senseStep]
    · exact List.append_ne_nil_of_left_ne_nil (ih h) _

theorem senseArrays_admissible {flagsTag nameTag versionTag : UInt32}
    (htags : [flagsTag, nameTag, versionTag].all (fun t => !isRegionTag t) = true)
    {ps : List (List UInt8)} (hne : ps ≠ []) (hnul : ∀ p ∈ ps, 0 ∉ p) :
    ∀ c ∈ senseArrays flagsTag nameTag versionTag (senseTable ps).2, c.Admissible := by
  have hpart : ∀ s ∈ (senseTable ps).2, 0 ∉ s.name ∧ 0 ∉ s.version := by
    intro s hs
    obtain ⟨p, hp, rfl⟩ := mem_senseTable hs
    obtain ⟨ops, hsplit, -⟩ := senseFlags_split p
    have h0 := hnul p hp
    rw [hsplit] at h0
    exact ⟨fun h => h0 (by simp [h]), fun h => h0 (by simp [h])⟩
  have hss := senseTable_ne_nil hne
  simp only [List.all_cons, List.all_nil, Bool.and_true, Bool.and_eq_true, Bool.not_eq_true'] at htags
  intro c hc
  simp only [senseArrays, List.mem_cons, List.mem_singleton, List.not_mem_nil, or_false] at hc
  rcases hc with rfl | rfl | rfl
  · exact ⟨by simpa [AddCall.tag, TagData.len, List.length_pos] using hss, trivial, htags.1⟩
  · exact AddCall.admissible_addStringArray htags.2.1 (by simpa using hss)
      (by simpa using fun s hs => (hpart s hs).1)
  · exact AddCall.admissible_addStringArray htags.2.2 (by simpa using hss)
      (by simpa using fun s hs => (hpart s hs).2)

/-- The calls of a configuration without NUL bytes are admissible. -/
theorem Config.append_admissible (c : Config) (hnul : ∀ s ∈ c.strings, 0 ∉ s) :
    ∀ call ∈ c.append, call.Admissible := by
  have hstr : ∀ s ∈ [c.name, c.version, c.release, c.arch, c.license, c.url, c.bugURL,
      c.packager, c.vendor, c.summary, c.description, c.preInstall.data, c.preInstall.prog,
      c.postInstall.data, c.postInstall.prog], 0 ∉ s :=
    fun s hs => hnul s (List.mem_append_left _ (List.mem_append_left _ hs))
  have hadd : ∀ {t v}, isRegionTag t = false → 0 ∉ v → ∀ call ∈ add t v, call.Admissible :=
    fun ht hv call hcall => by
      unfold add at hcall
      split_ifs at hcall
      · simp at hcall
      · rw [List.mem_singleton.mp hcall]
        exact AddCall.admissible_addString ht hv
  have hscript : ∀ {t t'} (s : Script), isRegionTag t = false → isRegionTag t' = false →
      0 ∉ s.data → 0 ∉ s.prog → ∀ call ∈ scriptCalls t t' s, call.Admissible :=
    fun s ht ht' hd hp call hcall => by
      unfold scriptCalls at hcall
      split_ifs at hcall
      · simp at hcall
      · simp only [List.mem_cons, List.mem_singleton, List.not_mem_nil, or_false] at hcall
        rcases hcall with rfl | rfl
        · exact AddCall.admissible_addString ht hd
        · exact AddCall.admissible_addString ht' hp
  have hprov : ∀ call ∈ c.provideCalls, call.Admissible :=
    senseArrays_admissible (by decide) (List.append_ne_nil_of_right_ne_nil _ (List.cons_ne_nil _ _))
      (fun p hp => by
        rcases List.mem_append.mp hp with hp | hp
        · exact hnul p (List.mem_append_left _ (List.mem_append_right _ hp))
        · rw [List.mem_singleton.mp hp]
          have := hstr c.name (by simp)
          have := hstr c.version (by simp)
          have : 0 ∉ c.release := hstr c.release (by simp)
          simp_all [Config.selfProvide])
  have hreq : ∀ call ∈ c.requireCalls, call.Admissible := by
    unfold Config.requireCalls
    split_ifs with h
    · simp
    · exact senseArrays_admissible (by decide) h
        (fun p hp => hnul p (List.mem_append_right _ hp))
  intro call hcall
  simp only [Config.append, List.mem_append] at hcall
  rcases hcall with ((((((((((((((h | h) | h) | h) | h) | h) | h) | h) | h) | h) | h) | h) | h) | h) | h)
  all_goals first
    | exact hadd (by decide) (hstr _ (by simp)) _ h
    | exact hscript _ (by decide) (by decide) (hstr _ (by simp)) (hstr _ (by simp)) _ h
    | exact hprov _ h
    | exact hreq _ h

/-- The ids `Config.append` adds tags under. -/
def configTags : List UInt32 :=
  [rpmtagName, rpmtagVersion, rpmtagRelease, rpmtagArch, rpmtagLicense, rpmtagUrl, rpmtagBugurl,
    rpmtagPackager, rpmtagVendor, rpmtagSummary, rpmtagDescription, rpmtagPrein, rpmtagPreinprog,
    rpmtagPostin, rpmtagPostinprog, rpmtagProvideflags, rpmtagProvidename, rpmtagProvideversion,
    rpmtagRequireflags, rpmtagRequirename, rpmtagRequireversion]

theorem tag_of_mem_senseArrays {a b d : UInt32} {ss : List Sense} {call : AddCall}
    (h : call ∈ senseArrays a b d ss) : call.tag.tag = a ∨ call.tag.tag = b ∨ call.tag.tag = d := by
  simp only [senseArrays, List.mem_cons, List.mem_singleton, List.not_mem_nil, or_false] at h
  rcases h with rfl | rfl | rfl <;> simp [AddCall.tag]

theorem Config.append_tag_mem (c : Config) : ∀ call ∈ c.append, call.tag.tag ∈ configTags := by
  have hadd : ∀ {t v call}, t ∈ configTags → call ∈ add t v → call.tag.tag ∈ configTags :=
    fun ht h => by
      unfold add at h
      split_ifs at h
      · simp at h
      · rw [List.mem_singleton.mp h]; exact ht
  have hscript : ∀ {t t' s call}, t ∈ configTags → t' ∈ configTags → call ∈ scriptCalls t t' s →
      call.tag.tag ∈ configTags := fun ht ht' h => by
    unfold scriptCalls at h
    split_ifs at h
    · simp at h
    · simp only [List.mem_cons, List.mem_singleton, List.not_mem_nil, or_false] at h
      rcases h with rfl | rfl
      · exact ht
      · exact ht'
  have hprov : ∀ call ∈ c.provideCalls, call.tag.tag ∈ configTags := fun call h => by
    rcases tag_of_mem_senseArrays h with h | h | h <;> rw [h] <;> decide
  have hreq : ∀ call ∈ c.requireCalls, call.tag.tag ∈ configTags := fun call h => by
    unfold Config.requireCalls at h
    split_ifs at h
    · simp at h
    · rcases tag_of_mem_senseArrays h with h | h | h <;> rw [h] <;> decide
  intro call hcall
  simp only [Config.append, List.mem_append] at hcall
  rcases hcall with ((((((((((((((h | h) | h) | h) | h) | h) | h) | h) | h) | h) | h) | h) | h) | h) | h)
  all_goals first
    | exact hadd (by decide) h
    | exact hscript (by decide) (by decide) h
    | exact hprov _ h
    | exact hreq _ h

end GoRpm.Tar2rpm
