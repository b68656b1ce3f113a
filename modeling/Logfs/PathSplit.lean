import Logfs.FsOps

/-!
# Paths from the left and from the right

`logfs_path_lookup` walks over a path from its first byte on, `split_parent` cuts it at its last
slash. The walk to the parent followed by a lookup of the last name is the walk over the whole.
-/
namespace Logfs

/-- Where the loop `while (i < len && p(path[i])) i++` stops. -/
def scanWhile (p : UInt8 → Bool) (path : List UInt8) (i : ℕ) : ℕ :=
  match h : path[i]? with
  | some c => if p c then scanWhile p path (i + 1) else i
  | none => i
termination_by path.length - i
decreasing_by
  have hlt := (List.getElem?_eq_some_iff.mp h).1
  omega

theorem scanWhile_eq (p : UInt8 → Bool) (path : List UInt8) (i : ℕ) :
    scanWhile p path i = i + ((path.drop i).takeWhile p).length := by
  fun_induction scanWhile p path i with
  | case1 i c hc hp ih =>
      obtain ⟨hlt, rfl⟩ := List.getElem?_eq_some_iff.mp hc
      rw [ih, List.drop_eq_getElem_cons hlt, List.takeWhile_cons_of_pos hp, List.length_cons]
      omega
  | case2 i c hc hp =>
      obtain ⟨hlt, rfl⟩ := List.getElem?_eq_some_iff.mp hc
      rw [List.drop_eq_getElem_cons hlt, List.takeWhile_cons_of_neg hp]
      rfl
  | case3 i hnone => rw [List.drop_eq_nil_of_le (List.getElem?_eq_none_iff.mp hnone)]; rfl

theorem le_scanWhile (p : UInt8 → Bool) (path : List UInt8) (i : ℕ) : i ≤ scanWhile p path i := by
  rw [scanWhile_eq]
  omega

theorem drop_takeWhile_length (p : UInt8 → Bool) (l : List UInt8) :
    l.drop (l.takeWhile p).length = l.dropWhile p := by
  have hsplit := List.takeWhile_append_dropWhile (p := p) (l := l)
  calc l.drop (l.takeWhile p).length
      = (l.takeWhile p ++ l.dropWhile p).drop (l.takeWhile p).length := by rw [hsplit]
    _ = l.dropWhile p := List.drop_left

theorem take_takeWhile_length (p : UInt8 → Bool) (l : List UInt8) :
    l.take (l.takeWhile p).length = l.takeWhile p := by
  have hsplit := List.takeWhile_append_dropWhile (p := p) (l := l)
  calc l.take (l.takeWhile p).length
      = (l.takeWhile p ++ l.dropWhile p).take (l.takeWhile p).length := by rw [hsplit]
    _ = l.takeWhile p := List.take_left

/-- What is left of the path where the loop stops. -/
theorem drop_scanWhile (p : UInt8 → Bool) (path : List UInt8) (i : ℕ) :
    path.drop (scanWhile p path i) = (path.drop i).dropWhile p := by
  rw [scanWhile_eq, ← List.drop_drop]
  exact drop_takeWhile_length p _

theorem dropWhile_head {p : UInt8 → Bool} {l : List UInt8} {c : UInt8} {rest : List UInt8}
    (h : l.dropWhile p = c :: rest) : p c = false := by
  have hne : l.dropWhile p ≠ [] := by simp [h]
  have hhead := List.head_dropWhile_not p hne
  simpa [h] using hhead

theorem lt_scanWhile_of_stopped {path : List UInt8} {i : ℕ}
    (h : scanWhile (· == slash) path i < path.length) :
    i < scanWhile (· != slash) path (scanWhile (· == slash) path i) := by
  have hle := le_scanWhile (· == slash) path i
  have hrest := drop_scanWhile (· == slash) path i
  rw [List.drop_eq_getElem_cons h] at hrest
  have hstop : path[scanWhile (· == slash) path i] ≠ slash := by
    simpa using dropWhile_head hrest.symm
  rw [scanWhile_eq (· != slash), List.drop_eq_getElem_cons h, List.takeWhile_cons_of_pos (by simpa using hstop),
    List.length_cons]
  omega

/-- The loop of `logfs_path_lookup` at index `i`, with the inode found so far. -/
def pathLoop (sb : Super) (path : List UInt8) (i : ℕ) (cur : UInt32) : TxnEM UInt32 :=
  if i < path.length then
    let start := scanWhile (· == slash) path i
    if path.length ≤ start then return cur
    else
      let stop := scanWhile (· != slash) path start
      if nameMax < stop - start then throw .enametoolong
      else do
        let next ← dirLookup sb cur ((path.drop start).take (stop - start))
        pathLoop sb path stop next.1
  else return cur
termination_by path.length - i
decreasing_by
  have hlt := lt_scanWhile_of_stopped (Nat.not_le.mp ‹_›)
  omega

/-- `logfs_path_lookup`, index by index -/
def pathScan (sb : Super) (path : List UInt8) : TxnEM UInt32 :=
  if path.head? ≠ some slash then throw .einval else pathLoop sb path 1 sb.rootIno

/-! ## Components -/

theorem components_slash (path : List UInt8) : components (slash :: path) = components path := by
  have hsplit := List.splitOn_append_cons_self (a := slash) [] path
  rw [List.nil_append] at hsplit
  rw [components, hsplit, List.filter_append]
  rfl

theorem components_slashes {us : List UInt8} (hus : ∀ c ∈ us, c = slash) (path : List UInt8) :
    components (us ++ path) = components path := by
  induction us with
  | nil => rfl
  | cons c us ih =>
      rw [hus c List.mem_cons_self, List.cons_append, components_slash,
        ih fun c hc => hus c (List.mem_cons_of_mem _ hc)]

/-- A component ends at a slash or with the path. -/
theorem components_append {comp rest : List UInt8} (hne : comp ≠ []) (hcomp : slash ∉ comp)
    (hrest : rest = [] ∨ rest.head? = some slash) : components (comp ++ rest) = comp :: components rest := by
  have hkeep : ∀ rest, (comp :: rest).filter (fun comp => !comp.isEmpty) =
      comp :: rest.filter fun comp => !comp.isEmpty := fun rest => List.filter_cons_of_pos (by simpa using hne)
  cases rest with
  | nil =>
      rw [List.append_nil, components, List.splitOn_eq_singleton hcomp, hkeep]
      rfl
  | cons c rest =>
      obtain rfl : c = slash := by simpa using hrest
      rw [components_slash, components, List.splitOn_append_cons_self_of_not_mem hcomp, hkeep]
      rfl

/-- Cut at a slash. -/
theorem components_concat (pre : List UInt8) {name : List UInt8} (hne : name ≠ []) (hname : slash ∉ name) :
    components (pre ++ slash :: name) = components pre ++ [name] := by
  have hlast := components_append hne hname (.inl rfl)
  rw [List.append_nil] at hlast
  rw [components, List.splitOn_append_cons_self, List.filter_append]
  change _ ++ components name = _
  rw [hlast]
  rfl

/-! ## The walk -/

/-- The loop does at each index what the walk over the components still ahead does. -/
theorem pathLoop_eq (sb : Super) (path : List UInt8) (i : ℕ) (cur : UInt32) :
    pathLoop sb path i cur = walk sb cur (components (path.drop i)) := by
  induction hleft : path.length - i using Nat.strong_induction_on generalizing i cur with
  | _ n ih =>
    rw [pathLoop]
    by_cases hi : i < path.length
    · rw [if_pos hi]
      have hskip := drop_scanWhile (· == slash) path i
      have hslashes : components (path.drop i) = components (path.drop (scanWhile (· == slash) path i)) := by
        rw [hskip]
        conv => lhs; rw [← List.takeWhile_append_dropWhile (p := (· == slash)) (l := path.drop i)]
        exact components_slashes (fun c hc => by simpa using List.mem_takeWhile_imp hc) _
      rw [hslashes]
      by_cases hend : path.length ≤ scanWhile (· == slash) path i
      · rw [if_pos hend, List.drop_eq_nil_of_le hend]
        rfl
      · rw [if_neg hend]
        have hlt := lt_scanWhile_of_stopped (Nat.not_le.mp hend)
        have hstop := scanWhile_eq (· != slash) path (scanWhile (· == slash) path i)
        have hrest := drop_scanWhile (· != slash) path (scanWhile (· == slash) path i)
        generalize scanWhile (· == slash) path i = start at *
        generalize scanWhile (· != slash) path start = stop at *
        have hcomp : (path.drop start).take (stop - start) = (path.drop start).takeWhile (· != slash) := by
          rw [hstop, Nat.add_sub_cancel_left]
          exact take_takeWhile_length _ _
        have hlen : stop - start = ((path.drop start).takeWhile (· != slash)).length := by omega
        have hne : (path.drop start).takeWhile (· != slash) ≠ [] := by
          rw [List.drop_eq_getElem_cons (Nat.not_le.mp hend)] at hskip ⊢
          have hhead : path[start] ≠ slash := by simpa using dropWhile_head hskip.symm
          rw [List.takeWhile_cons_of_pos (by simpa using hhead)]
          exact List.cons_ne_nil _ _
        have hfree : slash ∉ (path.drop start).takeWhile (· != slash) := fun hmem => by
          simpa using List.mem_takeWhile_imp hmem
        have hnext : path.drop stop = [] ∨ (path.drop stop).head? = some slash := by
          rw [hrest]
          cases hdrop : (path.drop start).dropWhile (· != slash) with
          | nil => exact .inl rfl
          | cons c rest => exact .inr (by simpa using dropWhile_head hdrop)
        have hcut : path.drop start = (path.drop start).takeWhile (· != slash) ++ path.drop stop := by
          rw [hrest, List.takeWhile_append_dropWhile]
        simp only
        rw [hcomp, hlen]
        conv => rhs; rw [hcut, components_append hne hfree hnext, walk]
        split_ifs with hlong
        · rfl
        · refine congrArg (dirLookup sb cur _ >>= ·) (funext fun next => ?_)
          exact ih _ (by omega) stop next.1 rfl
    · rw [if_neg hi, List.drop_eq_nil_of_le (Nat.not_lt.mp hi)]
      rfl

theorem pathScan_eq (sb : Super) (path : List UInt8) : pathScan sb path = pathLookup sb path := by
  unfold pathScan pathLookup
  by_cases hhead : path.head? = some slash
  · obtain ⟨rest, rfl⟩ := List.head?_eq_some_iff.mp hhead
    rw [if_neg (not_not_intro hhead), if_neg (not_not_intro hhead), pathLoop_eq, components_slash]
    rfl
  · rw [if_pos hhead, if_pos hhead]

theorem walk_append (sb : Super) (cur : UInt32) (us vs : List (List UInt8)) :
    walk sb cur (us ++ vs) = walk sb cur us >>= fun d => walk sb d vs := by
  induction us generalizing cur with
  | nil => rfl
  | cons u us ih =>
      rw [List.cons_append, walk, walk]
      split_ifs with hlong
      · rfl
      · rw [bind_assoc]
        exact congrArg (dirLookup sb cur u >>= ·) (funext fun next => ih next.1)

/-! ## The last slash -/

/-- What `split_parent` has cut when it returns 0. -/
theorem splitParent_ok {path parent name : List UInt8} (h : splitParent path = .ok (parent, name)) :
    ∃ pre, path = pre ++ slash :: name ∧ parent = (if pre = [] then [slash] else pre) ∧
      name ≠ [] ∧ slash ∉ name ∧ name.length ≤ nameMax := by
  unfold splitParent at h
  have hcut := List.rdropWhile_append_rtakeWhile (p := fun c => c != slash) (l := path)
  have hlast := List.rdropWhile_last_not (fun c => c != slash) path
  have hfree : slash ∉ path.rtakeWhile fun c => c != slash := fun hmem => by
    simpa using List.mem_rtakeWhile_imp hmem
  generalize path.rtakeWhile (fun c => c != slash) = last at *
  generalize path.rdropWhile (fun c => c != slash) = front at *
  subst hcut
  simp only at h
  split at h
  · cases h
  · next hall =>
      have hfront : front ≠ [] := by
        rintro rfl
        simp at hall
      have hslash : front.getLast hfront = slash := by simpa using hlast hfront
      obtain ⟨pre, hpre⟩ : ∃ pre, front = pre ++ [slash] :=
        ⟨front.dropLast, by rw [← hslash, List.dropLast_append_getLast hfront]⟩
      subst hpre
      have hplen : (pre ++ [slash] ++ last).length - last.length - 1 = pre.length := by
        simp only [List.length_append, List.length_singleton]
        omega
      rw [hplen] at h
      split at h
      · cases h
      · split at h
        · cases h
        · next hnil =>
            split at h
            · cases h
            · next hname =>
                cases h
                refine ⟨pre, by simp, ?_, hnil, hfree, Nat.not_lt.mp hname⟩
                simp [List.length_eq_zero_iff]

/-- The whole path from the left, or its parent from the left and then the name after the last
slash: the same calls, and so the same answer in every state, whatever the reads give. -/
theorem pathScan_split (sb : Super) {path parent name : List UInt8}
    (h : splitParent path = .ok (parent, name)) :
    pathScan sb path = do
      let d ← pathScan sb parent
      let found ← dirLookup sb d name
      return found.1 := by
  obtain ⟨pre, rfl, rfl, hne, hfree, hlen⟩ := splitParent_ok h
  have hlast : ∀ d, walk sb d [name] = (do let found ← dirLookup sb d name; return found.1) := by
    intro d
    rw [walk, if_neg (Nat.not_lt.mpr hlen)]
    rfl
  rw [pathScan_eq, pathScan_eq]
  cases pre with
  | nil =>
      have hparent : components [slash] = [] := components_slash []
      rw [if_pos rfl, pathLookup, pathLookup, if_neg (by simp), if_neg (by simp), components_concat [] hne hfree,
        walk_append, hparent]
      exact congrArg (walk sb sb.rootIno [] >>= ·) (funext hlast)
  | cons c pre =>
      rw [if_neg (List.cons_ne_nil c pre), pathLookup, pathLookup, List.cons_append, List.head?_cons, List.head?_cons]
      split_ifs with hhead
      · rfl
      · rw [← List.cons_append, components_concat (c :: pre) hne hfree, walk_append]
        exact congrArg (walk sb sb.rootIno _ >>= ·) (funext hlast)

/-- The path `/a//b`, whose parent ends in a slash. -/
theorem pathScan_split_slashes :
    (fun sb => pathScan sb [slash, 0x61, slash, slash, 0x62]) = fun sb => do
      let d ← pathScan sb [slash, 0x61, slash]
      let found ← dirLookup sb d [0x62]
      return found.1 :=
  funext fun sb => pathScan_split sb (by decide)

end Logfs
