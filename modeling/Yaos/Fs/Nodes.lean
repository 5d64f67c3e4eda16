import Yaos.Fs.Entries

/-!
# The image as a graph of nodes

Above the files an image is a table of nodes: the type, the number of links
and, for a directory, its entries. Here is what the functions on directories
read (`find`, `freeIdx` and `walk` say it as functions of the entries), and how
a change to a file is a change to a node (`Acts`).
-/

namespace Yaos.Fs

open Yaos.Lib Prog

structure Node where
  type : FileType
  nlink : Nat
  ents : List Dirent

def File.node (f : File) : Node := ⟨f.type, f.nlink, if f.type = .dir then entries f.data else []⟩

def Node.gone : Node := ⟨.free, 0, []⟩

def Img.node (s : Img) (i : Nat) : Node := if s.sb.Inum i then (s.file i).node else .gone

/-- Blocks are accounted for, and directories are made of entries. -/
structure Sound (s : Img) : Prop where
  blocks : Blocks s
  aligned : ∀ i, s.sb.Inum i → (s.inode i).type = .dir → direntSize ∣ (s.inode i).size

def Img.IsDir (s : Img) (d : Nat) : Prop := s.sb.Inum d ∧ (s.inode d).type = .dir

/-- The first entry of that name, from position `j` on. -/
def findEntry (sb : Super) (name : Name) : List Dirent → Nat → Option (Option Nat × Nat)
  | [], _ => none
  | e :: l, j => if sameName name e.name then some (sb.iget e.inum, direntSize * j)
      else findEntry sb name l (j + 1)

/-- What `dlookup` finds. -/
def Img.find (s : Img) (d : Nat) (name : Name) : Option (Option Nat × Nat) :=
  findEntry s.sb name (s.node d).ents 0

/-- Where `daddent` puts an entry, from position `j` on. -/
def freeIdx (name : Name) : List Dirent → Nat → Option Nat
  | [], j => some j
  | e :: l, j => if e.inum = 0 then some j else if sameName e.name name then none
      else freeIdx name l (j + 1)

/-- The directory and the name that a path comes to. The name is empty if the
path ends at a directory, `a/` or `/`. -/
def Img.walk (s : Img) : Nat → Nat → Name → Option (Nat × Name)
  | 0, _, _ => none
  | fuel + 1, rp, path =>
      let (name, rest) := skipelem path
      if name = [] ∨ rest = [] then some (rp, name)
      else
        match inodeOf (s.find rp name) with
        | none => none
        | some ip => if (s.inode ip).type ≠ .dir then none else s.walk fuel ip rest

def Img.at (s : Img) : Nat × Name → Option Nat
  | (d, name) => if name = [] then some d else inodeOf (s.find d name)

variable {s t u : Img} {i d j n : Nat} {name path : Name} {f : File} {nodes : Nat → Node}

/-! ## Reading a directory -/

theorem node_of_inum (hi : s.sb.Inum i) : s.node i = (s.file i).node := if_pos hi

theorem type_of_inum (hi : s.sb.Inum i) : (s.node i).type = (s.inode i).type := by
  rw [node_of_inum hi]
  rfl

theorem isDir_iff : s.IsDir d ↔ (s.node d).type = .dir := by
  constructor
  · intro hd
    rw [type_of_inum hd.1, hd.2]
  · intro htype
    by_cases hd : s.sb.Inum d
    · exact ⟨hd, by rwa [type_of_inum hd] at htype⟩
    · rw [Img.node, if_neg hd] at htype
      cases htype

theorem ents_of_dir (hd : s.IsDir d) : (s.node d).ents = entries (s.bytes d) := by
  rw [node_of_inum hd.1]
  exact if_pos hd.2

theorem length_ents (hd : s.IsDir d) : (s.node d).ents.length = (s.inode d).size / direntSize := by
  rw [ents_of_dir hd, length_entries, length_bytes]

theorem IsDir.ne_dev (hd : s.IsDir d) : (s.inode d).type ≠ .dev := by
  rw [hd.2]
  decide

theorem Sound.mul_length (h : Sound s) (hd : s.IsDir d) :
    direntSize * (s.node d).ents.length = (s.inode d).size := by
  rw [length_ents hd]
  exact Nat.mul_div_cancel' (h.aligned d hd.1 hd.2)

theorem Sound.lt_size_iff (h : Sound s) (hd : s.IsDir d) :
    direntSize * j < (s.inode d).size ↔ j < (s.node d).ents.length := by
  rw [← h.mul_length hd]
  unfold direntSize
  omega

theorem readEntry_eq (h : Sound s) (hd : s.IsDir d) {e : Dirent}
    (he : (s.node d).ents[j]? = some e) : readEntry d (direntSize * j) s = (.ok (some e), s) := by
  obtain ⟨hj, he⟩ := List.getElem?_eq_some_iff.mp he
  have hsize := h.mul_length hd
  have hle := h.blocks.size_le hd.1
  have hmax : maxFileSize + direntSize < 2 ^ 32 := by decide
  have hmul : direntSize * (j + 1) ≤ direntSize * (s.node d).ents.length := Nat.mul_le_mul_left _ hj
  rw [readEntry, bind_of_eq (iread_eq h.blocks hd.1 (IsDir.ne_dev hd)
    (Nat.le_of_lt ((h.lt_size_iff hd).mpr hj)) (by rw [Nat.mul_add] at hmul; omega))]
  dsimp only
  rw [if_pos (by simp; rw [Nat.mul_add] at hmul; omega)]
  simp only [ents_of_dir hd] at he
  simp only [entries, List.getElem_map, List.getElem_range] at he
  rw [← he]
  rfl

theorem assertDir_eq (hd : s.IsDir d) : assertDir d s = (.ok (), s) := by
  rw [assertDir, gets_bind, if_pos hd.2]
  rfl

theorem dlookupLoop_eq (h : Sound s) (hd : s.IsDir d) (name : Name) : ∀ fuel j : Nat,
    (s.node d).ents.length < fuel + j → j ≤ (s.node d).ents.length →
    dlookupLoop d name fuel (direntSize * j) s =
      (.ok (findEntry s.sb name ((s.node d).ents.drop j) j), s) := by
  intro fuel
  induction fuel with
  | zero =>
    intro j hfuel hj
    omega
  | succ fuel ih =>
    intro j hfuel hj
    rw [dlookupLoop, gets_bind, id]
    by_cases hlt : j < (s.node d).ents.length
    · rw [if_pos ((h.lt_size_iff hd).mpr hlt), List.drop_eq_getElem_cons hlt,
        bind_of_eq (readEntry_eq h hd (List.getElem?_eq_getElem hlt)), findEntry]
      dsimp only
      split
      · rfl
      · exact ih (j + 1) (by omega) hlt
    · rw [if_neg (by rw [h.lt_size_iff hd]; exact hlt), List.drop_of_length_le (by omega)]
      rfl

/-- **What `dlookup` does.** -/
theorem dlookup_eq (h : Sound s) (hd : s.IsDir d) (name : Name) :
    dlookup d name s = (.ok (s.find d name), s) := by
  rw [dlookup, bind_of_eq (assertDir_eq hd), gets_bind]
  refine dlookupLoop_eq h hd name _ 0 ?_ (Nat.zero_le _)
  rw [Img.rounds, length_ents hd]
  omega

theorem freeSlot_eq (h : Sound s) (hd : s.IsDir d) (name : Name) : ∀ fuel j : Nat,
    (s.node d).ents.length < fuel + j → j ≤ (s.node d).ents.length →
    freeSlot d name fuel (direntSize * j) s =
      (.ok ((freeIdx name ((s.node d).ents.drop j) j).map (direntSize * ·)), s) := by
  intro fuel
  induction fuel with
  | zero =>
    intro j hfuel hj
    omega
  | succ fuel ih =>
    intro j hfuel hj
    rw [freeSlot, gets_bind]
    by_cases hlt : j < (s.node d).ents.length
    · rw [if_pos ((h.lt_size_iff hd).mpr hlt), List.drop_eq_getElem_cons hlt,
        bind_of_eq (readEntry_eq h hd (List.getElem?_eq_getElem hlt)), freeIdx]
      dsimp only
      split
      · rfl
      · split
        · rfl
        · exact ih (j + 1) (by omega) hlt
    · rw [if_neg (by rw [h.lt_size_iff hd]; exact hlt), List.drop_of_length_le (by omega)]
      obtain rfl : j = (s.node d).ents.length := by omega
      rfl

theorem countEntries_eq (h : Sound s) (hd : s.IsDir d) : ∀ fuel j n : Nat,
    (s.node d).ents.length < fuel + j → j ≤ (s.node d).ents.length →
    countEntries d fuel (direntSize * j) n s =
      (.ok (n + ((s.node d).ents.drop j).countP fun e => e.inum ≠ 0), s) := by
  intro fuel
  induction fuel with
  | zero =>
    intro j n hfuel hj
    omega
  | succ fuel ih =>
    intro j n hfuel hj
    rw [countEntries, gets_bind]
    by_cases hlt : j < (s.node d).ents.length
    · rw [if_pos ((h.lt_size_iff hd).mpr hlt), List.drop_eq_getElem_cons hlt,
        bind_of_eq (readEntry_eq h hd (List.getElem?_eq_getElem hlt)), List.countP_cons]
      dsimp only
      rw [← Nat.mul_add_one, ih (j + 1) _ (by omega) hlt]
      congr 2
      simp only [decide_eq_true_eq]
      split <;> omega
    · rw [if_neg (by rw [h.lt_size_iff hd]; exact hlt), List.drop_of_length_le (by omega)]
      rfl

/-- **What `emptydir` does.** -/
theorem emptydir_eq (h : Sound s) (hd : s.IsDir d) :
    emptydir d s = (.ok (((s.node d).ents.countP fun e => e.inum ≠ 0) = 2 : Bool), s) := by
  have hrounds : (s.node d).ents.length < s.rounds d + 0 := by
    rw [Img.rounds, length_ents hd]
    omega
  have hcount := countEntries_eq h hd (s.rounds d) 0 0 hrounds (Nat.zero_le _)
  rw [Nat.mul_zero, List.drop_zero, Nat.zero_add] at hcount
  rw [emptydir, gets_bind, bind_of_eq hcount]
  rfl

theorem findEntry_eq_some {sb : Super} {l : List Dirent} {r : Option Nat} {off : Nat}
    (h : findEntry sb name l j = some (r, off)) :
    ∃ k e, l[k]? = some e ∧ sameName name e.name = true ∧ r = sb.iget e.inum ∧
      off = direntSize * (j + k) ∧ ∀ e' ∈ l.take k, sameName name e'.name = false := by
  induction l generalizing j with
  | nil => cases h
  | cons e l ih =>
    rw [findEntry] at h
    split at h
    next hsame =>
      cases h
      exact ⟨0, e, rfl, hsame, rfl, rfl, by simp⟩
    next hsame =>
      obtain ⟨k, e', hk, hsame', hr, hoff, hbefore⟩ := ih h
      refine ⟨k + 1, e', hk, hsame', hr, by rw [hoff]; congr 1; omega, ?_⟩
      rw [List.take_succ_cons, List.forall_mem_cons]
      exact ⟨by simpa using hsame, hbefore⟩

theorem freeIdx_eq_some {l : List Dirent} {k : Nat} (h : freeIdx name l j = some k) :
    ∃ m, k = j + m ∧ m ≤ l.length ∧ (∀ e, l[m]? = some e → e.inum = 0) ∧
      ∀ e ∈ l.take m, e.inum ≠ 0 ∧ sameName e.name name = false := by
  induction l generalizing j with
  | nil =>
    cases h
    exact ⟨0, rfl, Nat.le_refl _, by simp, by simp⟩
  | cons e l ih =>
    rw [freeIdx] at h
    split at h
    next hdead =>
      cases h
      exact ⟨0, rfl, Nat.zero_le _, by simpa using hdead, by simp⟩
    next hlive =>
      split at h
      next => cases h
      next hsame =>
        obtain ⟨m, hk, hm, hdead, hbefore⟩ := ih h
        refine ⟨m + 1, by omega, Nat.succ_le_succ hm, hdead, ?_⟩
        rw [List.take_succ_cons, List.forall_mem_cons]
        exact ⟨⟨hlive, by simpa using hsame⟩, hbefore⟩

theorem freeIdx_eq_none {l : List Dirent} (h : freeIdx name l j = none) :
    ∃ e ∈ l, e.inum ≠ 0 ∧ sameName e.name name = true := by
  induction l generalizing j with
  | nil => cases h
  | cons e l ih =>
    rw [freeIdx] at h
    split at h
    next => cases h
    next hlive =>
      split at h
      next hsame => exact ⟨e, List.mem_cons_self, hlive, hsame⟩
      next =>
        obtain ⟨e', he', hlive'⟩ := ih h
        exact ⟨e', List.mem_cons_of_mem _ he', hlive'⟩

theorem iget_eq_some {sb : Super} (h : sb.iget n = some i) : n = i ∧ sb.Inum i := by
  rw [Super.iget] at h
  split at h
  next hn =>
    cases h
    exact ⟨rfl, hn⟩
  next => cases h

theorem find_eq_some {off : Nat} (h : s.find d name = some (some i, off)) :
    s.sb.Inum i ∧ ∃ j nm, (s.node d).ents[j]? = some ⟨i, nm⟩ ∧ sameName name nm = true ∧
      off = direntSize * j ∧ ∀ e ∈ (s.node d).ents.take j, sameName name e.name = false := by
  obtain ⟨j, ⟨n, nm⟩, hj, hsame, hr, hoff, hbefore⟩ := findEntry_eq_some h
  obtain ⟨rfl, hi⟩ := iget_eq_some hr.symm
  rw [Nat.zero_add] at hoff
  exact ⟨hi, j, nm, hj, hsame, hoff, hbefore⟩

theorem inodeOf_eq_some {r : Option (Option Nat × Nat)} (h : inodeOf r = some i) :
    ∃ off, r = some (some i, off) := by
  match r, h with
  | some (some _, off), rfl => exact ⟨off, rfl⟩

/-! ## Paths -/

theorem length_skipelem {rest : Name} (hskip : skipelem path = (name, rest)) (h : name ≠ []) :
    rest.length < path.length := by
  simp only [skipelem, Prod.mk.injEq] at hskip
  obtain ⟨rfl, rfl⟩ := hskip
  have hle := (List.dropWhile_suffix (l := path) isSep).length_le
  have hsplit := List.takeWhile_append_dropWhile (p := fun c => !isSep c) (l := path.dropWhile isSep)
  have hlen := congrArg List.length hsplit
  rw [List.length_append] at hlen
  have hpos : 0 < ((path.dropWhile isSep).takeWhile fun c => !isSep c).length := by
    rw [List.length_pos_iff]
    intro hnil
    rw [hnil] at h
    exact h rfl
  omega

theorem ilookup_eq (h : Sound s) : ∀ (fuel rp : Nat) (path : Name), s.IsDir rp →
    path.length < fuel → ilookup fuel rp path s = (.ok ((s.walk fuel rp path).bind s.at), s) := by
  intro fuel
  induction fuel with
  | zero =>
    intro rp path _ hfuel
    omega
  | succ fuel ih =>
    intro rp path hrp hfuel
    rw [ilookup, bind_of_eq (assertDir_eq hrp), Img.walk]
    rcases hskip : skipelem path with ⟨name, rest⟩
    dsimp only
    by_cases hname : name = []
    · rw [if_pos hname, if_pos (.inl hname), Option.bind_some, Img.at, if_pos hname]
      rfl
    · rw [if_neg hname, bind_of_eq (dlookup_eq h hrp name)]
      by_cases hrest : rest = []
      · rw [if_pos (.inr hrest), Option.bind_some, Img.at, if_neg hname]
        cases inodeOf (s.find rp name) with
        | none => rfl
        | some ip => simp [hrest]
      · rw [if_neg (not_or.mpr ⟨hname, hrest⟩)]
        cases hfound : inodeOf (s.find rp name) with
        | none => rfl
        | some ip =>
          simp only [if_neg hrest, gets_bind]
          split
          · rfl
          next hdir =>
            obtain ⟨off, hfind⟩ := inodeOf_eq_some hfound
            have hshort := length_skipelem hskip hname
            exact ih ip rest ⟨(find_eq_some hfind).1, not_not.mp hdir⟩ (by omega)

/-- `iunlink` at the end of the path. -/
def unlinkHere (s : Img) (d : Nat) (name : Name) : FsM Bool :=
  match s.find d name with
  | some (some ip, off) => unlinkEntry d ip name off
  | _ => pure false

theorem iunlink_eq (h : Sound s) : ∀ (fuel rp : Nat) (path : Name), s.IsDir rp →
    path.length < fuel → iunlink fuel rp path s =
      (match s.walk fuel rp path with
        | some (d, name) => if name = [] then pure false else unlinkHere s d name
        | none => pure false : FsM Bool) s := by
  intro fuel
  induction fuel with
  | zero =>
    intro rp path _ hfuel
    omega
  | succ fuel ih =>
    intro rp path hrp hfuel
    rw [iunlink, bind_of_eq (assertDir_eq hrp), Img.walk]
    rcases hskip : skipelem path with ⟨name, rest⟩
    dsimp only
    by_cases hname : name = []
    · rw [if_pos hname, if_pos (.inl hname)]
      simp only [if_pos hname]
    · rw [if_neg hname, bind_of_eq (dlookup_eq h hrp name)]
      by_cases hrest : rest = []
      · rw [if_pos (.inr hrest)]
        simp only [if_neg hname, if_pos hrest, unlinkHere]
        rcases s.find rp name with _ | ⟨_ | ip, off⟩ <;> rfl
      · rw [if_neg (not_or.mpr ⟨hname, hrest⟩)]
        rcases hfound : s.find rp name with _ | ⟨_ | ip, off⟩
        · rfl
        · rfl
        · simp only [if_neg hrest, gets_bind, inodeOf, Option.bind_some]
          split
          · rfl
          next hdir =>
            have hshort := length_skipelem hskip hname
            exact ih ip rest ⟨(find_eq_some hfound).1, not_not.mp hdir⟩ (by omega)

theorem icreat_eq (h : Sound s) (type : FileType) : ∀ (fuel rp : Nat) (path : Name), s.IsDir rp →
    path.length < fuel → icreat fuel rp path type s =
      (match s.walk fuel rp path with
        | some (d, name) =>
          if name = [] ∨ inodeOf (s.find d name) ≠ none then pure none
          else do
            let ip ← create d name type
            pure (some ip)
        | none => pure none : FsM (Option Nat)) s := by
  intro fuel
  induction fuel with
  | zero =>
    intro rp path _ hfuel
    omega
  | succ fuel ih =>
    intro rp path hrp hfuel
    rw [icreat, bind_of_eq (assertDir_eq hrp), Img.walk]
    rcases hskip : skipelem path with ⟨name, rest⟩
    dsimp only
    by_cases hname : name = []
    · rw [if_pos hname, if_pos (.inl hname)]
      simp only [hname, true_or, if_true]
    · rw [if_neg hname, bind_of_eq (dlookup_eq h hrp name)]
      by_cases hrest : rest = []
      · cases hfound : inodeOf (s.find rp name) with
        | none => simp [hname, hrest, hfound]
        | some ip => simp [hname, hrest, hfound]
      · cases hfound : inodeOf (s.find rp name) with
        | none => simp [hname, hrest]
        | some ip =>
          simp only [if_neg hrest, gets_bind, if_neg (not_or.mpr ⟨hname, hrest⟩)]
          split
          · rfl
          next hdir =>
            obtain ⟨off, hfind⟩ := inodeOf_eq_some hfound
            have hshort := length_skipelem hskip hname
            exact ih ip rest ⟨(find_eq_some hfind).1, not_not.mp hdir⟩ (by omega)

theorem walk_isDir : ∀ (fuel rp : Nat) (path : Name), s.IsDir rp →
    s.walk fuel rp path = some (d, name) → s.IsDir d := by
  intro fuel
  induction fuel with
  | zero =>
    intro rp path _ h
    cases h
  | succ fuel ih =>
    intro rp path hrp h
    rw [Img.walk] at h
    rcases hskip : skipelem path with ⟨name', rest⟩
    rw [hskip] at h
    dsimp only at h
    split at h
    · cases h
      exact hrp
    · split at h
      · cases h
      next ip hfound =>
        split at h
        · cases h
        next hdir =>
          obtain ⟨off, hfind⟩ := inodeOf_eq_some hfound
          exact ih ip rest ⟨(find_eq_some hfind).1, not_not.mp hdir⟩ h

end Yaos.Fs
