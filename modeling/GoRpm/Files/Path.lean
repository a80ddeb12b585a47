import Mathlib.Tactic

/-!
Slash-separated paths as `tar2rpm` and the file listing handle them: `path.Join` and the
`path.Clean` it ends with. These are Go library functions, modelled by the rules `path.Clean`
documents rather than by its byte loop: the elements between slashes are taken in order, an
empty element or `.` is dropped, `..` removes the element before it, and the kept elements are
joined by single slashes, after a leading slash for a rooted path. Cleaning is idempotent, and
a doubled slash does not change what it gives, which is what lets the listing join a directory
and a base name back into the path they were split from.
-/

namespace GoRpm

/-- One element of a path as `path.Clean` treats it, given the elements kept so far, last
first. An empty element and `.` are dropped; `..` removes the element before it, and where
there is none, or only `..`s, it is dropped from a rooted path and kept in a relative one; any
other element is kept. -/
def cleanStep (rooted : Bool) (kept : List (List UInt8)) (e : List UInt8) : List (List UInt8) :=
  if e = [] ∨ e = [46] then kept
  else if e = [46, 46] then
    match kept with
    | d :: rest => if d = [46, 46] then e :: kept else rest
    | [] => if rooted then [] else [e]
  else e :: kept

/-- `path.Clean`: the kept elements joined by single slashes, after a slash for a rooted path;
`.` for a relative path that keeps nothing, and for the empty path. -/
def pathClean (p : List UInt8) : List UInt8 :=
  if p = [] then [46] else
  let rooted := p.head? = some 47
  let kept := ((p.splitOn 47).foldl (cleanStep rooted) []).reverse
  if rooted then 47 :: [47].intercalate kept
  else if kept = [] then [46] else [47].intercalate kept

/-- `path.Join`: the elements from the first non-empty one, joined by slashes and cleaned; the
empty path when every element is empty. -/
def pathJoin (elems : List (List UInt8)) : List UInt8 :=
  match elems.dropWhile (· = []) with
  | [] => []
  | es => pathClean ([47].intercalate es)

example : pathClean [47, 97, 47, 47, 46, 47, 98, 47, 46, 46, 47, 99] = [47, 97, 47, 99] := by
  decide

theorem splitOn_append_slash : ∀ (xs ys : List UInt8),
    (xs ++ 47 :: ys).splitOn 47 = xs.splitOn 47 ++ ys.splitOn 47
  | [], ys => by simp [List.splitOn]
  | x :: xs, ys => by
    have ih := splitOn_append_slash xs ys
    simp only [List.splitOn] at ih ⊢
    rw [List.cons_append, List.splitOnP_cons, List.splitOnP_cons, ih]
    split_ifs
    · rfl
    · obtain ⟨a, as, h⟩ := List.exists_cons_of_ne_nil (List.splitOnP_ne_nil (· == 47) xs)
      rw [h]
      rfl

theorem not_mem_of_mem_splitOn {xs e : List UInt8} (he : e ∈ xs.splitOn 47) : 47 ∉ e := by
  intro h47
  induction xs generalizing e with
  | nil => simp only [List.splitOn_nil, List.mem_singleton] at he; subst he; cases h47
  | cons x xs ih =>
    simp only [List.splitOn, List.splitOnP_cons] at he
    split_ifs at he with hx
    · rcases List.mem_cons.mp he with rfl | he
      · cases h47
      · exact ih he h47
    · obtain ⟨a, as, hs⟩ := List.exists_cons_of_ne_nil (List.splitOnP_ne_nil (· == 47) xs)
      rw [hs, List.modifyHead_cons, List.mem_cons] at he
      rcases he with rfl | he
      · rcases List.mem_cons.mp h47 with h | h
        · exact hx (by simp [h])
        · exact ih (by simp only [List.splitOn, hs, List.mem_cons_self]) h
      · exact ih (by simp only [List.splitOn, hs, List.mem_cons_of_mem a he]) h47

theorem cleanStep_nil (rooted : Bool) (kept : List (List UInt8)) : cleanStep rooted kept [] = kept := by
  simp [cleanStep]

theorem pathClean_double_slash (d b : List UInt8) :
    pathClean (d ++ 47 :: 47 :: b) = pathClean (d ++ 47 :: b) := by
  have hsplit : (d ++ 47 :: 47 :: b).splitOn 47 = d.splitOn 47 ++ [] :: b.splitOn 47 := by
    rw [splitOn_append_slash, show (47 :: b : List UInt8) = [] ++ 47 :: b from rfl,
      splitOn_append_slash]
    rfl
  have hhead : (d ++ 47 :: 47 :: b).head? = (d ++ 47 :: b).head? := by cases d <;> rfl
  simp only [pathClean, List.append_eq_nil, List.cons_ne_nil, and_false, if_false, hhead, hsplit,
    splitOn_append_slash, List.foldl_append, List.foldl_cons, cleanStep_nil]

theorem pathJoin_dir_base {d : List UInt8} (hd : d.getLast? = some 47) (b : List UInt8) :
    pathJoin [d, b] = pathClean (d ++ b) := by
  obtain ⟨d', rfl⟩ : ∃ d', d = d' ++ [47] := ⟨d.dropLast, (List.dropLast_append_getLast? _ hd).symm⟩
  have hjoin : pathJoin [d' ++ [47], b] = pathClean (d' ++ 47 :: 47 :: b) := by
    simp [pathJoin, List.intercalate]
  rw [hjoin, pathClean_double_slash, List.append_assoc, List.singleton_append]

/-- An element `path.Clean` keeps as it is: not empty, not `.` or `..`, and without a slash. -/
def RealElem (e : List UInt8) : Prop := e ≠ [] ∧ e ≠ [46] ∧ e ≠ [46, 46] ∧ 47 ∉ e

/-- The kept elements, last first: real elements after the `..`s a relative path could not
remove, and no `..` at all in a rooted path. -/
def Kept (rooted : Bool) (kept : List (List UInt8)) : Prop :=
  ∃ reals k, kept = reals ++ List.replicate k [46, 46] ∧ (∀ e ∈ reals, RealElem e) ∧
    (rooted = true → k = 0)

theorem cleanStep_kept {rooted : Bool} {kept : List (List UInt8)} (h : Kept rooted kept)
    {e : List UInt8} (he : 47 ∉ e) : Kept rooted (cleanStep rooted kept e) := by
  obtain ⟨reals, k, rfl, hreals, hk⟩ := h
  by_cases h0 : e = [] ∨ e = [46]
  · unfold cleanStep
    rw [if_pos h0]
    exact ⟨reals, k, rfl, hreals, hk⟩
  by_cases hdd : e = [46, 46]
  · subst hdd
    unfold cleanStep
    rw [if_neg h0, if_pos rfl]
    cases reals with
    | cons d rest =>
      have hd := (hreals d (List.mem_cons_self d rest)).2.2.1
      simp only [List.cons_append, hd, if_false]
      exact ⟨rest, k, rfl, fun e he => hreals e (List.mem_cons_of_mem d he), hk⟩
    | nil =>
      cases k with
      | zero =>
        cases rooted
        · exact ⟨[], 1, rfl, by simp, by simp⟩
        · exact ⟨[], 0, rfl, by simp, fun _ => rfl⟩
      | succ k =>
        have hr : rooted = false := by cases rooted <;> simp_all
        refine ⟨[], k + 2, by simp [List.replicate_succ], by simp, fun h => ?_⟩
        rw [hr] at h
        cases h
  · unfold cleanStep
    rw [if_neg h0, if_neg hdd]
    push_neg at h0
    exact ⟨e :: reals, k, rfl, fun e' he' => (List.mem_cons.mp he').elim
      (fun h => h ▸ ⟨h0.1, h0.2, hdd, he⟩) (hreals e'), hk⟩

theorem foldl_cleanStep_kept (rooted : Bool) :
    ∀ {es : List (List UInt8)} {kept : List (List UInt8)}, (∀ e ∈ es, 47 ∉ e) → Kept rooted kept →
      Kept rooted (es.foldl (cleanStep rooted) kept)
  | [], _, _, h => h
  | e :: es, _, hes, h => by
    rw [List.foldl_cons]
    exact foldl_cleanStep_kept rooted (fun e' he' => hes e' (List.mem_cons_of_mem e he'))
      (cleanStep_kept h (hes e (List.mem_cons_self e es)))

theorem foldl_cleanStep_reals (rooted : Bool) :
    ∀ {es : List (List UInt8)} (kept : List (List UInt8)), (∀ e ∈ es, RealElem e) →
      es.foldl (cleanStep rooted) kept = es.reverse ++ kept
  | [], _, _ => rfl
  | e :: es, kept, hes => by
    obtain ⟨h0, h1, h2, -⟩ := hes e (List.mem_cons_self e es)
    rw [List.foldl_cons, foldl_cleanStep_reals rooted _ fun e' he' => hes e' (List.mem_cons_of_mem e he')]
    simp [cleanStep, h0, h1, h2]

theorem foldl_cleanStep_dotdots (k j : Nat) :
    (List.replicate k [46, 46]).foldl (cleanStep false) (List.replicate j [46, 46]) =
      List.replicate (k + j) [46, 46] := by
  induction k generalizing j with
  | zero => simp
  | succ k ih =>
    rw [List.replicate_succ, List.foldl_cons,
      show cleanStep false (List.replicate j [46, 46]) [46, 46] = List.replicate (j + 1) [46, 46] by
        cases j <;> simp [cleanStep, List.replicate_succ],
      ih, Nat.add_comm j 1, ← Nat.add_assoc]

theorem RealElem.head_ne_slash {e : List UInt8} (h : RealElem e) : e.head? ≠ some 47 := by
  obtain ⟨hne, -, -, h47⟩ := h
  obtain ⟨a, as, rfl⟩ := List.exists_cons_of_ne_nil hne
  intro ha
  cases ha
  exact h47 (List.mem_cons_self _ _)

theorem head?_intercalate {e : List UInt8} (he : e ≠ []) (l : List (List UInt8)) :
    ([47].intercalate (e :: l)).head? = e.head? := by
  obtain ⟨a, as, rfl⟩ := List.exists_cons_of_ne_nil he
  cases l <;> simp [List.intercalate]

theorem pathClean_pathClean (p : List UInt8) : pathClean (pathClean p) = pathClean p := by
  by_cases hp : p = []
  · subst hp; decide
  obtain ⟨reals, k, hkept, hreals, hk⟩ := @foldl_cleanStep_kept (decide (p.head? = some 47))
    (p.splitOn 47) [] (fun e he => not_mem_of_mem_splitOn he) ⟨[], 0, rfl, by simp, fun _ => rfl⟩
  have hreals' : ∀ e ∈ reals.reverse, RealElem e := fun e he => hreals e (List.mem_reverse.mp he)
  by_cases hr : p.head? = some 47
  · obtain rfl : k = 0 := hk (decide_eq_true hr)
    have hclean : pathClean p = 47 :: [47].intercalate reals.reverse := by
      rw [decide_eq_true hr, List.replicate_zero, List.append_nil] at hkept
      simp only [pathClean, hp, if_false, hr, decide_True, if_true, hkept]
    have hsplit : (47 :: [47].intercalate reals.reverse).splitOn 47 =
        [] :: (if reals.reverse = [] then [[]] else reals.reverse) := by
      rw [show (47 :: [47].intercalate reals.reverse : List UInt8) =
        [] ++ 47 :: [47].intercalate reals.reverse from rfl, splitOn_append_slash]
      split_ifs with hnil
      · rw [hnil]; rfl
      · rw [List.splitOn_intercalate _ 47 (fun e he => (hreals' e he).2.2.2) hnil]; rfl
    rw [hclean]
    simp only [pathClean, List.cons_ne_nil, if_false, List.head?_cons, decide_True, if_true,
      hsplit, List.foldl_cons, cleanStep_nil]
    split_ifs with hnil
    · rw [hnil]; rfl
    · rw [foldl_cleanStep_reals true [] hreals', List.append_nil, List.reverse_reverse]
  · rw [decide_eq_false hr] at hkept
    have hrev : (reals ++ List.replicate k [46, 46]).reverse =
        List.replicate k [46, 46] ++ reals.reverse := by simp
    have hclean : pathClean p =
        if List.replicate k [46, 46] ++ reals.reverse = [] then [46]
        else [47].intercalate (List.replicate k [46, 46] ++ reals.reverse) := by
      simp only [pathClean, hp, if_false, hr, decide_False, hkept, hrev]
    rw [hclean]
    split_ifs with hnil
    · decide
    have hno47 : ∀ e ∈ List.replicate k [46, 46] ++ reals.reverse, 47 ∉ e := by
      intro e he
      rcases List.mem_append.mp he with he | he
      · rw [List.eq_of_mem_replicate he]; decide
      · exact (hreals' e he).2.2.2
    obtain ⟨e, l, hel⟩ := List.exists_cons_of_ne_nil hnil
    have hehead : e ≠ [] ∧ e.head? ≠ some 47 := by
      cases k with
      | zero =>
        have he : e ∈ reals.reverse := by simp_all
        exact ⟨(hreals' e he).1, (hreals' e he).head_ne_slash⟩
      | succ k =>
        rw [List.replicate_succ, List.cons_append, List.cons.injEq] at hel
        rw [← hel.1]
        decide
    have hne : [47].intercalate (List.replicate k [46, 46] ++ reals.reverse) ≠ [] := by
      rw [hel]
      intro h
      have := head?_intercalate hehead.1 l
      rw [h] at this
      exact hehead.1 (List.head?_eq_none_iff.mp this.symm)
    have hhead : ([47].intercalate (List.replicate k [46, 46] ++ reals.reverse)).head? ≠ some 47 := by
      rw [hel, head?_intercalate hehead.1]
      exact hehead.2
    have hfold : (List.replicate k [46, 46] ++ reals.reverse).foldl (cleanStep false) [] =
        reals ++ List.replicate k [46, 46] := by
      rw [List.foldl_append, show ([] : List (List UInt8)) = List.replicate 0 [46, 46] from rfl,
        foldl_cleanStep_dotdots, Nat.add_zero, foldl_cleanStep_reals false _ hreals',
        List.reverse_reverse]
    simp only [pathClean, hne, if_false, hhead, decide_False,
      List.splitOn_intercalate _ 47 hno47 hnil, hfold, hrev, hnil]

theorem intercalate_single_cons_cons (x : UInt8) (l l' : List UInt8) (ls : List (List UInt8)) :
    [x].intercalate (l :: l' :: ls) = l ++ x :: [x].intercalate (l' :: ls) := by
  simp [List.intercalate, List.intersperse]

theorem mem_intercalate_single {x : UInt8} : ∀ {ls : List (List UInt8)} {b : UInt8},
    b ∈ [x].intercalate ls → b = x ∨ ∃ l ∈ ls, b ∈ l
  | [], _, h => by simp [List.intercalate] at h
  | [l], _, h => .inr ⟨l, List.mem_singleton_self l, by simpa [List.intercalate] using h⟩
  | l :: l' :: ls, b, h => by
    rw [intercalate_single_cons_cons] at h
    rcases List.mem_append.mp h with h | h
    · exact .inr ⟨l, List.mem_cons_self _ _, h⟩
    · rcases List.mem_cons.mp h with h | h
      · exact .inl h
      · rcases mem_intercalate_single h with h | ⟨l'', hl, hb⟩
        · exact .inl h
        · exact .inr ⟨l'', List.mem_cons_of_mem _ hl, hb⟩

theorem mem_intercalate_single_of_mem {x : UInt8} :
    ∀ {ls : List (List UInt8)} {l : List UInt8} {b : UInt8}, l ∈ ls → b ∈ l → b ∈ [x].intercalate ls
  | [], _, _, hl, _ => absurd hl (List.not_mem_nil _)
  | [l'], _, _, hl, hb => by simpa [List.intercalate, List.mem_singleton.mp hl] using hb
  | l' :: l'' :: ls, l, b, hl, hb => by
    rw [intercalate_single_cons_cons]
    rcases List.mem_cons.mp hl with rfl | hl
    · exact List.mem_append_left _ hb
    · exact List.mem_append_right _ (List.mem_cons_of_mem _ (mem_intercalate_single_of_mem hl hb))

theorem mem_cleanStep {rooted : Bool} {kept : List (List UInt8)} {x e : List UInt8}
    (h : e ∈ cleanStep rooted kept x) : e ∈ kept ∨ e = x := by
  unfold cleanStep at h
  by_cases h1 : x = [] ∨ x = [46]
  · rw [if_pos h1] at h
    exact .inl h
  rw [if_neg h1] at h
  by_cases h2 : x = [46, 46]
  · rw [if_pos h2] at h
    cases kept with
    | cons d rest =>
      by_cases h3 : d = [46, 46]
      · subst h3
        simp only [if_true] at h
        exact (List.mem_cons.mp h).symm
      · simp only [h3, if_false] at h
        exact .inl (List.mem_cons_of_mem _ h)
    | nil => cases rooted <;> simp_all
  · rw [if_neg h2] at h
    exact (List.mem_cons.mp h).symm

theorem mem_foldl_cleanStep (rooted : Bool) : ∀ (es kept : List (List UInt8)) {e : List UInt8},
    e ∈ es.foldl (cleanStep rooted) kept → e ∈ kept ∨ e ∈ es
  | [], _, _, h => .inl h
  | x :: es, kept, e, h => by
    rcases mem_foldl_cleanStep rooted es _ h with h | h
    · rcases mem_cleanStep h with h | rfl
      · exact .inl h
      · exact .inr (List.mem_cons_self _ _)
    · exact .inr (List.mem_cons_of_mem _ h)

theorem mem_pathClean {p : List UInt8} {b : UInt8} (h : b ∈ pathClean p) :
    b ∈ p ∨ b = 47 ∨ b = 46 := by
  have hkept : ∀ rooted, ∀ e ∈ ((p.splitOn 47).foldl (cleanStep rooted) []).reverse,
      b ∈ e → b ∈ p := by
    intro rooted e he hb
    rcases mem_foldl_cleanStep rooted _ [] (List.mem_reverse.mp he) with h | h
    · cases h
    · rw [← List.intercalate_splitOn p 47]
      exact mem_intercalate_single_of_mem h hb
  have hjoin : ∀ rooted, b ∈ [47].intercalate ((p.splitOn 47).foldl (cleanStep rooted) []).reverse →
      b ∈ p ∨ b = 47 ∨ b = 46 := fun rooted hb => by
    rcases mem_intercalate_single hb with h | ⟨e, he, hb⟩
    · exact .inr (.inl h)
    · exact .inl (hkept rooted e he hb)
  by_cases hp : p = []
  · subst hp
    exact .inr (.inr (List.mem_singleton.mp h))
  by_cases hr : p.head? = some 47
  · simp only [pathClean, hp, if_false, hr, decide_True, if_true] at h
    rcases List.mem_cons.mp h with h | h
    · exact .inr (.inl h)
    · exact hjoin _ h
  · simp only [pathClean, hp, if_false, hr, decide_False] at h
    split_ifs at h
    · exact .inr (.inr (List.mem_singleton.mp h))
    · exact hjoin _ h

end GoRpm
