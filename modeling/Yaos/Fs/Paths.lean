import Yaos.Fs.Format
import Yaos.Fs.Safe
import Mathlib.Data.List.TakeWhile

/-!
# The last element of a path

`splitpath` returns where the last element starts. It has no separator in it,
so a walk along it stays in the directory where it starts.
-/

namespace Yaos.Fs

open Yaos.Lib Prog

variable {s : Img} {d rp j i : Nat} {name path : Name}

def Plain (name : Name) : Prop := ∀ c ∈ name, isSep c = false

theorem length_skipped_lt (hne : path ≠ []) :
    ((path.dropWhile isSep).dropWhile fun c => !isSep c).length < path.length := by
  cases path with
  | nil => exact absurd rfl hne
  | cons c path =>
    cases hc : isSep c with
    | true =>
      rw [List.dropWhile_cons_of_pos hc]
      have hfirst := List.length_dropWhile_le isSep path
      have hsecond := List.length_dropWhile_le (fun c => !isSep c) (path.dropWhile isSep)
      rw [List.length_cons]
      omega
    | false =>
      rw [List.dropWhile_cons_of_neg (by simp [hc]), List.dropWhile_cons_of_pos (by simp [hc])]
      have hrest := List.length_dropWhile_le (fun c => !isSep c) path
      rw [List.length_cons]
      omega

theorem splitLoop_plain : ∀ (fuel : Nat) (name path : Name), path.length ≤ fuel →
    (path = [] → Plain name) → Plain (splitLoop fuel name path) := by
  intro fuel
  induction fuel with
  | zero =>
    intro name path hfuel hlast
    exact hlast (List.length_eq_zero_iff.mp (Nat.le_zero.mp hfuel))
  | succ fuel ih =>
    intro name path hfuel hlast
    rw [splitLoop]
    split
    next hnil => exact hlast hnil
    next hne =>
      have hlt := length_skipped_lt hne
      apply ih
      · omega
      · intro hend c hc
        simpa using List.dropWhile_eq_nil_iff.mp hend c hc

theorem baseName_plain (path : Name) : Plain (baseName path) :=
  splitLoop_plain _ _ _ (Nat.le_refl _) (by rintro rfl; simp [Plain])

theorem skipelem_plain (h : Plain name) : skipelem name = (name.take dirsiz, []) := by
  have hstart : name.dropWhile isSep = name := by
    cases name with
    | nil => rfl
    | cons c name => exact List.dropWhile_cons_of_neg (by simp [h c (by simp)])
  have hall : ∀ c ∈ name, (!isSep c) = true := fun c hc => by simp [h c hc]
  rw [skipelem, hstart, List.takeWhile_eq_self_iff.mpr hall, List.dropWhile_eq_nil_iff.mpr hall]

theorem walk_plain (h : Plain name) (n : Nat) :
    s.walk (n + 1) rp name = some (rp, name.take dirsiz) := by
  rw [Img.walk, skipelem_plain h]
  exact if_pos (.inr rfl)

theorem sameName_take {a b : Name} : sameName (a.take dirsiz) b = sameName a b := by
  rw [sameName, sameName, List.take_take, Nat.min_self]

theorem find_take : s.find d (name.take dirsiz) = s.find d name := by
  have hentry : ∀ (l : List Dirent) (n : Nat),
      findEntry s.sb (name.take dirsiz) l n = findEntry s.sb name l n := by
    intro l
    induction l with
    | nil => exact fun _ => rfl
    | cons e l ih =>
      intro n
      rw [findEntry, findEntry, sameName_take, ih]
  exact hentry _ _

/-- An entry that one element names is the one `dlookup` finds. -/
theorem Img.Names.of_plain (hn : s.Names rp name d j i) (hplain : Plain name) :
    d = rp ∧ s.find rp name = some (some i, direntSize * j) := by
  obtain ⟨last, hwalk, -, hfind, -⟩ := hn
  rw [walk_plain hplain] at hwalk
  cases hwalk
  exact ⟨rfl, find_take ▸ hfind⟩

/-! ## The directory part -/

/-- Empty, or with a separator at its end. -/
def SepEnd (path : Name) : Prop := ∀ c, path.getLast? = some c → isSep c = true

theorem sepEnd_nil : SepEnd [] := by
  intro c hc
  cases hc

theorem SepEnd.suffix {dir rest : Name} (h : SepEnd dir) (hrest : rest <:+ dir) : SepEnd rest := by
  obtain ⟨front, rfl⟩ := hrest
  intro c hc
  apply h
  rw [List.getLast?_append, hc]
  rfl

/-- The rounds of `splitpath`: `dir` has been passed, then the element `elem`. -/
theorem splitLoop_split : ∀ (fuel : Nat) (elem path dir : Name), path.length ≤ fuel → SepEnd dir →
    (elem = [] ∨ ∀ c, path.head? = some c → isSep c = true) →
    ∃ dir', dir ++ (elem ++ path) = dir' ++ splitLoop fuel (elem ++ path) path ∧ SepEnd dir' := by
  intro fuel
  induction fuel with
  | zero =>
    intro elem path dir _ hdir _
    exact ⟨dir, rfl, hdir⟩
  | succ fuel ih =>
    intro elem path dir hfuel hdir hhead
    rw [splitLoop]
    split
    next => exact ⟨dir, rfl, hdir⟩
    next hne =>
      have hlt := length_skipped_lt hne
      have hseps := List.takeWhile_append_dropWhile (p := isSep) (l := path)
      have hparts := List.takeWhile_append_dropWhile (p := fun c => !isSep c)
        (l := path.dropWhile isSep)
      have hdir' : SepEnd (dir ++ (elem ++ path.takeWhile isSep)) := by
        intro c hc
        rw [List.getLast?_append, List.getLast?_append] at hc
        cases hlast : (path.takeWhile isSep).getLast? with
        | some c' =>
          rw [hlast] at hc
          cases hc
          exact List.mem_takeWhile_imp (List.mem_of_getLast? hlast)
        | none =>
          -- no separator: this is the first round
          have hnone := List.getLast?_eq_none_iff.mp hlast
          have helem : elem = [] := by
            rcases hhead with helem | hhead
            · exact helem
            · cases path with
              | nil => exact absurd rfl hne
              | cons c₀ path =>
                rw [List.takeWhile_cons_of_pos (hhead c₀ rfl)] at hnone
                cases hnone
          rw [hlast, helem] at hc
          exact hdir c hc
      have hnext := ih ((path.dropWhile isSep).takeWhile fun c => !isSep c)
        ((path.dropWhile isSep).dropWhile fun c => !isSep c) _ (by omega) hdir' (.inr ?_)
      · obtain ⟨dir', heq, hsep⟩ := hnext
        rw [hparts] at heq
        refine ⟨dir', ?_, hsep⟩
        rw [← heq, List.append_assoc, List.append_assoc, hseps]
      · intro c hc
        have hnot := List.head?_dropWhile_not (fun c => !isSep c) (path.dropWhile isSep)
        rw [hc] at hnot
        simpa using hnot

theorem baseName_split (path : Name) : ∃ dir, path = dir ++ baseName path ∧ SepEnd dir :=
  splitLoop_split path.length [] path [] (Nat.le_refl _) sepEnd_nil (.inl rfl)

theorem dirName_eq {dir : Name} (hsplit : path = dir ++ baseName path)
    (hlen : path.length - (baseName path).length ≤ bufSize - 1) : dirName path = dir := by
  have hlength := congrArg List.length hsplit
  rw [List.length_append] at hlength
  rw [dirName, Nat.min_eq_left hlen, show path.length - (baseName path).length = dir.length by omega]
  nth_rewrite 1 [hsplit]
  exact List.take_left

theorem skipelem_sepEnd {dir elem rest : Name} (hdir : SepEnd dir) (hskip : skipelem dir = (elem, rest)) :
    (elem = [] ∧ dir.dropWhile isSep = []) ∨ (elem ≠ [] ∧ rest ≠ [] ∧ SepEnd rest) := by
  simp only [skipelem, Prod.mk.injEq] at hskip
  obtain ⟨rfl, rfl⟩ := hskip
  cases hstart : dir.dropWhile isSep with
  | nil => exact .inl ⟨rfl, rfl⟩
  | cons c l =>
    have hc : isSep c = false := by
      have hnot := List.head?_dropWhile_not isSep dir
      rw [hstart] at hnot
      exact hnot
    have hsuffix : (c :: l) <:+ dir := hstart ▸ List.dropWhile_suffix isSep
    refine .inr ⟨?_, ?_, ?_⟩
    · rw [List.takeWhile_cons_of_pos (by simp [hc])]
      simp [dirsiz]
    · intro hnil
      have hall := List.dropWhile_eq_nil_iff.mp hnil
      have hlast := (hdir.suffix hsuffix) _ (List.getLast?_eq_some_getLast (by simp))
      have hbad := hall _ (List.getLast_mem (show c :: l ≠ [] by simp))
      rw [hlast] at hbad
      cases hbad
    · exact (hdir.suffix hsuffix).suffix (List.dropWhile_suffix _)

theorem skipelem_append {dir elem rest base : Name} (helem : elem ≠ []) (hrest : rest ≠ [])
    (hskip : skipelem dir = (elem, rest)) : skipelem (dir ++ base) = (elem, rest ++ base) := by
  simp only [skipelem, Prod.mk.injEq] at hskip ⊢
  obtain ⟨rfl, rfl⟩ := hskip
  have hstart : dir.dropWhile isSep ≠ [] := by
    intro hnil
    rw [hnil] at hrest
    exact hrest rfl
  have hdrop : (dir ++ base).dropWhile isSep = dir.dropWhile isSep ++ base := by
    rw [List.dropWhile_append, if_neg (by simpa using hstart)]
  rw [hdrop]
  have hsplit := List.takeWhile_append_dropWhile (p := fun c => !isSep c) (l := dir.dropWhile isSep)
  constructor
  · rw [List.takeWhile_append, if_neg]
    intro hlen
    have hlength := congrArg List.length hsplit
    rw [List.length_append, hlen] at hlength
    exact hrest (List.length_eq_zero_iff.mp (by omega))
  · rw [List.dropWhile_append, if_neg (by simpa using hrest)]

theorem skipelem_last {dir base : Name} (hdir : dir.dropWhile isSep = []) (hbase : Plain base) :
    skipelem (dir ++ base) = (base.take dirsiz, []) := by
  have hdrop : (dir ++ base).dropWhile isSep = base.dropWhile isSep := by
    rw [List.dropWhile_append, if_pos (by simp [hdir])]
  have hplain := skipelem_plain hbase
  rw [skipelem] at hplain ⊢
  rw [hdrop]
  exact hplain

/-- **A walk along a path** is one along its directory part. -/
theorem walk_append {base : Name} (hbase : Plain base) : ∀ (n rp : Nat) (dir : Name), SepEnd dir → dir.length < n →
    s.walk n rp (dir ++ base) = (s.walk n rp dir).map fun x => (x.1, base.take dirsiz) := by
  intro n
  induction n with
  | zero =>
    intro rp dir _ hlen
    omega
  | succ n ih =>
    intro rp dir hdir hlen
    rw [Img.walk, Img.walk]
    rcases hskip : skipelem dir with ⟨elem, rest⟩
    rcases skipelem_sepEnd hdir hskip with ⟨rfl, hstart⟩ | ⟨helem, hrest, hsep⟩
    · rw [skipelem_last hstart hbase]
      simp
    · rw [skipelem_append helem hrest hskip]
      dsimp only
      have hlong : rest ++ base ≠ [] := by simp [hrest]
      rw [if_neg (by simp [helem, hlong]), if_neg (by simp [helem, hrest])]
      have hlt := length_skipelem hskip helem
      cases inodeOf (s.find rp elem) with
      | none => rfl
      | some ip =>
        dsimp only
        split
        · rfl
        · exact ih ip rest hsep (by omega)

theorem walk_sepEnd : ∀ (n rp : Nat) (dir : Name), SepEnd dir →
    s.walk n rp dir = some (d, name) → name = [] := by
  intro n
  induction n with
  | zero =>
    intro rp dir _ hwalk
    cases hwalk
  | succ n ih =>
    intro rp dir hdir hwalk
    rw [Img.walk] at hwalk
    rcases hskip : skipelem dir with ⟨elem, rest⟩
    rw [hskip] at hwalk
    dsimp only at hwalk
    rcases skipelem_sepEnd hdir hskip with ⟨rfl, -⟩ | ⟨helem, hrest, hsep⟩
    · rw [if_pos (.inl rfl)] at hwalk
      cases hwalk
      rfl
    · rw [if_neg (by simp [helem, hrest])] at hwalk
      cases hfind : inodeOf (s.find rp elem) with
      | none =>
        rw [hfind] at hwalk
        cases hwalk
      | some ip =>
        rw [hfind] at hwalk
        dsimp only at hwalk
        split at hwalk
        · cases hwalk
        · exact ih ip rest hsep hwalk

theorem walk_fuel : ∀ (n m rp : Nat) (path : Name), path.length < n → path.length < m →
    s.walk n rp path = s.walk m rp path := by
  intro n
  induction n with
  | zero =>
    intro m rp path hn
    omega
  | succ n ih =>
    intro m rp path hn hm
    cases m with
    | zero => omega
    | succ m =>
      rw [Img.walk, Img.walk]
      rcases hskip : skipelem path with ⟨elem, rest⟩
      dsimp only
      split
      next => rfl
      next hmore =>
        have hlt := length_skipelem hskip fun hnil => hmore (.inl hnil)
        cases inodeOf (s.find rp elem) with
        | none => rfl
        | some ip =>
          dsimp only
          split
          · rfl
          · exact ih m ip rest (by omega) (by omega)

theorem walk_root {dir : Name} (hsplit : path = dir ++ baseName path) (hdir : SepEnd dir) :
    s.spot path = (s.spot dir).map fun x => (x.1, (baseName path).take dirsiz) := by
  have hlen := congrArg List.length hsplit
  rw [List.length_append] at hlen
  have happend := walk_append (s := s) (baseName_plain path) (path.length + 1) root dir hdir
    (by omega)
  rw [← hsplit] at happend
  rw [Img.spot, Img.spot, happend, walk_fuel _ (dir.length + 1) _ _ (by omega) (by omega)]

theorem resolve_sepEnd {dir : Name} (hdir : SepEnd dir) :
    s.resolve dir = some d ↔ s.spot dir = some (d, []) := by
  rw [Img.resolve, Option.bind_eq_some_iff]
  constructor
  · rintro ⟨⟨d', name'⟩, hwalk, hat⟩
    have hname := walk_sepEnd _ _ _ hdir hwalk
    subst hname
    rw [Img.at, if_pos rfl] at hat
    cases hat
    exact hwalk
  · intro hwalk
    exact ⟨(d, []), hwalk, by rw [Img.at, if_pos rfl]⟩

/-- The part of a path before its last element. -/
def dirPart (path : Name) : Name := path.take (path.length - (baseName path).length)

theorem dirPart_eq {dir : Name} (hsplit : path = dir ++ baseName path) : dirPart path = dir := by
  have hlength := congrArg List.length hsplit
  rw [List.length_append] at hlength
  rw [dirPart, show path.length - (baseName path).length = dir.length by omega]
  nth_rewrite 1 [hsplit]
  exact List.take_left

theorem walk_baseName (hwalk : s.spot path = some (d, name)) :
    name = (baseName path).take dirsiz := by
  obtain ⟨dir, hsplit, hdir⟩ := baseName_split path
  rw [walk_root hsplit hdir] at hwalk
  obtain ⟨place, -, heq⟩ := Option.map_eq_some_iff.mp hwalk
  cases heq
  rfl

/-- A path comes to the directory of its first part, with its last element. -/
theorem resolve_dirPart : s.resolve (dirPart path) = some d ↔
    s.spot path = some (d, (baseName path).take dirsiz) := by
  obtain ⟨dir, hsplit, hdir⟩ := baseName_split path
  rw [dirPart_eq hsplit, walk_root hsplit hdir, Option.map_eq_some_iff]
  constructor
  · intro hres
    exact ⟨(d, []), (resolve_sepEnd hdir).mp hres, rfl⟩
  · rintro ⟨⟨d', name⟩, hwalk, heq⟩
    cases heq
    obtain rfl := walk_sepEnd _ _ _ hdir hwalk
    exact (resolve_sepEnd hdir).mpr hwalk

/-! ## The two parsers -/

/-- A lookup by the two parts that `splitpath` makes of a path. -/
def lookupSplit (path : Name) : FsM (Option Nat) := do
  let dir ← lookup (dirName path)
  if baseName path = [] then pure dir
  else
    match dir with
    | none => pure none
    | some dp => do
        let d ← gets fun img => img.inode dp
        if d.type ≠ .dir then pure none
        else do
          let found ← dlookup dp (baseName path)
          pure (inodeOf found)

theorem lookupSplit_eq (h : Tidy s) (path : Name) : lookupSplit path s =
    (.ok (if baseName path = [] then s.resolve (dirName path)
      else (s.resolve (dirName path)).bind fun dp =>
        if (s.inode dp).type = .dir then inodeOf (s.find dp (baseName path)) else none), s) := by
  rw [lookupSplit, bind_of_eq (lookup_eq h _)]
  split
  next => rfl
  next =>
    cases hr : s.resolve (dirName path) with
    | none => rfl
    | some dp =>
      dsimp only [Option.bind_some]
      rw [gets_bind]
      by_cases hdir : (s.inode dp).type = .dir
      · rw [if_neg (not_not.mpr hdir), if_pos hdir,
          bind_of_eq (dlookup_eq h.sound ⟨resolve_inum h hr, hdir⟩ _)]
        rfl
      · rw [if_pos hdir, if_neg hdir]
        rfl

theorem resolve_eq_walk {dir : Name} (hdir : SepEnd dir) :
    s.resolve dir = (s.spot dir).map Prod.fst := by
  rw [Img.resolve]
  cases hwalk : s.spot dir with
  | none => rfl
  | some place =>
    obtain ⟨d, name⟩ := place
    rw [walk_sepEnd _ _ _ hdir hwalk]
    rfl

/-- **`ilookup` and `splitpath` agree**: the file at the end of a path is the one
that its last element names in the directory at the end of the rest. -/
theorem lookup_eq_lookupSplit (h : Tidy s) (hlen : path.length < bufSize) :
    lookup path s = lookupSplit path s ∧ ∃ r, lookup path s = (.ok r, s) := by
  refine ⟨?_, _, lookup_eq h path⟩
  obtain ⟨dir, hsplit, hdir⟩ := baseName_split path
  have hname : dirName path = dir := dirName_eq hsplit (by omega)
  rw [lookup_eq h, lookupSplit_eq h, hname, resolve_eq_walk hdir, Img.resolve, walk_root hsplit hdir]
  cases hwalk : s.spot dir with
  | none => simp
  | some place =>
    obtain ⟨d, name⟩ := place
    have hd := walk_isDir _ _ _ h.isDir_root hwalk
    dsimp only [Option.map_some, Option.bind_some]
    rw [if_pos hd.2, Img.at]
    by_cases hbase : baseName path = []
    · rw [if_pos (by rw [hbase]; rfl), if_pos hbase]
    · have hshort : (baseName path).take dirsiz ≠ [] := by simp [hbase, dirsiz]
      rw [if_neg hshort, if_neg hbase, find_take]

/-- `//f` on an image without files. -/
theorem lookup_eq_lookupSplit_none : lookup [47, 47, 102] (formatted (small 4)) =
    lookupSplit [47, 47, 102] (formatted (small 4)) :=
  (lookup_eq_lookupSplit (tidy_small (by decide) (by decide)) (by decide)).1

/-! ## Walks in two images -/

def Img.trail (s : Img) : Nat → Nat → Name → List Nat
  | 0, _, _ => []
  | fuel + 1, rp, path =>
      let (name, rest) := skipelem path
      rp :: if name = [] ∨ rest = [] then []
        else
          match inodeOf (s.find rp name) with
          | none => []
          | some ip => if (s.inode ip).type ≠ .dir then [] else s.trail fuel ip rest

/-- A walk goes the same way in an image where the names on its way are the same. -/
theorem walk_stable {t : Img} {place : Nat × Name} : ∀ (n rp : Nat) (path : Name),
    (∀ d ip name, d ∈ s.trail n rp path → ip ∈ s.trail n rp path → name ≠ [] →
      inodeOf (s.find d name) = some ip →
      inodeOf (t.find d name) = some ip ∧ (t.inode ip).type = .dir) →
    s.walk n rp path = some place → t.walk n rp path = some place := by
  intro n
  induction n with
  | zero =>
    intro rp path _ hwalk
    cases hwalk
  | succ n ih =>
    intro rp path hsame hwalk
    rw [Img.walk] at hwalk ⊢
    rw [Img.trail] at hsame
    rcases hskip : skipelem path with ⟨elem, rest⟩
    rw [hskip] at hwalk hsame
    dsimp only at hwalk hsame ⊢
    by_cases hlast : elem = [] ∨ rest = []
    · rw [if_pos hlast] at hwalk ⊢
      exact hwalk
    rw [if_neg hlast] at hwalk hsame ⊢
    cases hfind : inodeOf (s.find rp elem) with
    | none =>
      rw [hfind] at hwalk
      cases hwalk
    | some ip =>
      rw [hfind] at hwalk hsame
      dsimp only at hwalk hsame
      by_cases hdir : (s.inode ip).type = .dir
      · rw [if_neg (not_not.mpr hdir)] at hwalk hsame
        have hmem : ip ∈ s.trail n ip rest := by
          cases n with
          | zero => cases hwalk
          | succ n =>
            rw [Img.trail]
            exact List.mem_cons_self
        obtain ⟨hfind', hdir'⟩ := hsame rp ip elem List.mem_cons_self
          (List.mem_cons_of_mem _ hmem) (fun hnil => hlast (.inl hnil)) hfind
        rw [hfind']
        dsimp only
        rw [if_neg (not_not.mpr hdir')]
        exact ih ip rest (fun d i name hd hi => hsame d i name (List.mem_cons_of_mem _ hd)
          (List.mem_cons_of_mem _ hi)) hwalk
      · rw [if_pos hdir] at hwalk
        cases hwalk

theorem trail_isDir : ∀ (n rp : Nat) (path : Name), s.IsDir rp → ∀ d ∈ s.trail n rp path, s.IsDir d := by
  intro n
  induction n with
  | zero =>
    intro rp path _ d hd
    cases hd
  | succ n ih =>
    intro rp path hrp d hd
    rw [Img.trail] at hd
    rcases hskip : skipelem path with ⟨elem, rest⟩
    rw [hskip] at hd
    dsimp only at hd
    rcases List.mem_cons.mp hd with rfl | hd
    · exact hrp
    · split at hd
      next => cases hd
      next =>
        cases hfind : inodeOf (s.find rp elem) with
        | none =>
          rw [hfind] at hd
          cases hd
        | some ip =>
          rw [hfind] at hd
          dsimp only at hd
          split at hd
          next => cases hd
          next hdir => exact ih ip rest ⟨find_inum hfind, not_not.mp hdir⟩ d hd

/-- A directory that `emptydir` accepts names no inode but in `.` and `..`. -/
theorem DirOk.dead_of_empty {sb : Super} {l : List Dirent} {e : Dirent} (h : DirOk sb l)
    (hempty : l.countP (fun e => e.inum ≠ 0) = 2) (hj : 2 ≤ j) (he : l[j]? = some e) :
    e.inum = 0 := by
  obtain ⟨a, ha, hdot⟩ := h.dot
  obtain ⟨b, hb, hdotdot⟩ := h.dotdot
  match l, hdot, hdotdot with
  | e₀ :: e₁ :: l, hdot, hdotdot =>
    cases hdot
    cases hdotdot
    have hrest : l.countP (fun e => e.inum ≠ 0) = 0 := by
      have hpos := ha.1
      have hpos' := hb.1
      rw [List.countP_cons_of_pos (by simp; omega), List.countP_cons_of_pos (by simp; omega)] at hempty
      omega
    obtain ⟨m, rfl⟩ : ∃ m, j = m + 2 := ⟨j - 2, by omega⟩
    have hmem : e ∈ l := List.mem_of_getElem? (by simpa using he)
    simpa using List.countP_eq_zero.mp hrest e hmem

end Yaos.Fs
