import Yaos.Fs.Renames
import Yaos.Lib.Route

/-!
# Paths as routes

A path is a list of elements to descend by and a last one to look up. So the
general facts about routes apply to paths, in one image and in two: a path sees
only the names it asks for (`Img.asks`), and a path that does not ask for the
name of a directory never comes to it or below it.
-/

namespace Yaos.Fs

open Yaos.Lib Relation

variable {s t : Img} {c d i j k n p x y : Nat} {e : Dirent} {name nm path : Name}

/-- The elements of a path before its last one. -/
def elementsLoop : Nat → Name → List Name
  | 0, _ => []
  | fuel + 1, path =>
      let (name, rest) := skipelem path
      if name = [] ∨ rest = [] then [] else name :: elementsLoop fuel rest

def elements (path : Name) : List Name := elementsLoop (path.length + 1) path

/-- The last element, as it is looked up; it is empty for `a/` and `/`. -/
def lastName (path : Name) : Name := (baseName path).take dirsiz

def allElements (path : Name) : List Name :=
  elements path ++ if lastName path = [] then [] else [lastName path]

def Img.descend (s : Img) (d : Nat) (name : Name) : Option Nat :=
  (inodeOf (s.find d name)).filter fun i => (s.inode i).type = .dir

/-- The names that a path asks for, each with its directory. -/
def Img.asks (s : Img) (path : Name) : List (Nat × Name) := lookups s.descend root (allElements path)

/-- Two names for one entry: names are compared by their first `DIRSIZ` bytes. -/
def SameSpot (x y : Nat × Name) : Prop := x.1 = y.1 ∧ sameName x.2 y.2 = true

/-- The path does not ask for the name. -/
def Img.Avoids (s : Img) (path : Name) (spot : Nat × Name) : Prop := ∀ x ∈ s.asks path, ¬ SameSpot x spot

instance {x y : Nat × Name} : Decidable (SameSpot x y) := inferInstanceAs (Decidable (_ ∧ _))

instance {spot : Nat × Name} : Decidable (s.Avoids path spot) :=
  inferInstanceAs (Decidable (∀ x ∈ s.asks path, ¬ SameSpot x spot))

/-! ## Walks -/

theorem descend_eq_some : s.descend d name = some i ↔ inodeOf (s.find d name) = some i ∧ s.IsDir i := by
  rw [Img.descend, Option.filter_eq_some_iff, decide_eq_true_eq]
  constructor
  · rintro ⟨hfound, hdir⟩
    exact ⟨hfound, find_inum hfound, hdir⟩
  · rintro ⟨hfound, hdir⟩
    exact ⟨hfound, hdir.2⟩

theorem walk_route : ∀ (n rp : Nat) (path : Name), path.length < n →
    (s.walk n rp path).map Prod.fst = route s.descend rp (elementsLoop n path) := by
  intro n
  induction n with
  | zero =>
    intro rp path hlen
    omega
  | succ n ih =>
    intro rp path hlen
    rw [Img.walk, elementsLoop]
    rcases hskip : skipelem path with ⟨elem, rest⟩
    dsimp only
    split
    next => rfl
    next hmore =>
      have hlt := length_skipelem hskip fun hnil => hmore (.inl hnil)
      rw [route, Img.descend]
      cases hfind : inodeOf (s.find rp elem) with
      | none => rfl
      | some ip =>
        dsimp only
        by_cases hdir : (s.inode ip).type = .dir
        · rw [if_neg (not_not.mpr hdir), ih ip rest (by omega), Option.filter_some,
            if_pos (decide_eq_true hdir), Option.bind_some]
        · rw [if_pos hdir, Option.filter_some, if_neg (by simpa using hdir)]
          rfl

/-- **A walk from the root** is a route, and the last element. -/
theorem walk_eq_route : s.spot path =
    (route s.descend root (elements path)).map fun d => (d, lastName path) := by
  rw [elements, ← walk_route _ _ _ (Nat.lt_succ_self _)]
  change _ = ((s.spot path).map Prod.fst).map _
  cases hwalk : s.spot path with
  | none => rfl
  | some place =>
    obtain ⟨d, name⟩ := place
    rw [walk_baseName hwalk]
    rfl

theorem resolve_eq_route : s.resolve path =
    (route s.descend root (elements path)).bind fun d => s.at (d, lastName path) := by
  rw [Img.resolve, walk_eq_route]
  cases route s.descend root (elements path) with
  | none => rfl
  | some d => rfl

theorem resolve_dir : (s.resolve path = some d ∧ s.IsDir d) ↔
    (route s.descend root (allElements path) = some d ∧ s.IsDir d) := by
  rw [resolve_eq_route, allElements, route_append]
  cases hroute : route s.descend root (elements path) with
  | none => rfl
  | some c =>
    rw [Option.bind_some, Option.bind_some, Img.at]
    split
    next hnil =>
      rfl
    next hname =>
      rw [route]
      constructor
      · rintro ⟨hfound, hdir⟩
        rw [descend_eq_some.mpr ⟨hfound, hdir⟩]
        exact ⟨rfl, hdir⟩
      · rintro ⟨hstep, hdir⟩
        obtain ⟨y, hy, hend⟩ := Option.bind_eq_some_iff.mp hstep
        cases hend
        exact ⟨(descend_eq_some.mp hy).1, hdir⟩

theorem elementsLoop_ne_nil : ∀ (n : Nat) (path : Name), ∀ nm ∈ elementsLoop n path, nm ≠ [] := by
  intro n
  induction n with
  | zero =>
    intro path nm hnm
    cases hnm
  | succ n ih =>
    intro path nm hnm
    rw [elementsLoop] at hnm
    rcases hskip : skipelem path with ⟨elem, rest⟩
    rw [hskip] at hnm
    dsimp only at hnm
    split at hnm
    next => cases hnm
    next hmore =>
      rcases List.mem_cons.mp hnm with rfl | hnm
      · exact fun hnil => hmore (.inl hnil)
      · exact ih rest nm hnm

theorem elements_ne_nil : ∀ nm ∈ elements path, nm ≠ [] := elementsLoop_ne_nil _ _

theorem allElements_ne_nil : ∀ nm ∈ allElements path, nm ≠ [] := by
  intro nm hnm
  rcases List.mem_append.mp hnm with hnm | hnm
  · exact elements_ne_nil nm hnm
  · split at hnm
    next => cases hnm
    next hne =>
      rw [List.mem_singleton] at hnm
      exact hnm ▸ hne

/-- What a path asks for: the names on its way, and the last one if it comes so far. -/
theorem mem_asks {z : Nat × Name} : z ∈ s.asks path ↔ z ∈ lookups s.descend root (elements path) ∨
    lastName path ≠ [] ∧ ∃ d, route s.descend root (elements path) = some d ∧ z = (d, lastName path) := by
  rw [Img.asks, allElements, mem_lookups_append]
  refine or_congr Iff.rfl ?_
  split
  next hnil => simp [lookups, hnil]
  next hne =>
    refine (exists_congr fun d => and_congr Iff.rfl ?_).trans (and_iff_right hne).symm
    rw [lookups, List.mem_cons]
    cases s.descend d (lastName path) with
    | none => simp
    | some y => simp [lookups]

/-! ## Below a directory -/

theorem sameName_trans {a b c : Name} (h : sameName a b = true) (h' : sameName b c = true) :
    sameName a c = true := by
  rw [sameName, decide_eq_true_eq] at h h' ⊢
  exact h.trans h'

theorem sameName_nil_iff : sameName [] name = true ↔ name = [] := by
  cases name with
  | nil => simp [sameName]
  | cons c name => simp [sameName, dirsiz]

/-- `x` has this name in the directory `p`. -/
structure Img.Called (s : Img) (p : Nat) (name : Name) (x : Nat) : Prop where
  dir : s.IsDir p
  nonempty : name ≠ []
  proper : ¬ (sameName name dot = true ∨ sameName name dotdot = true)
  found : inodeOf (s.find p name) = some x

theorem find_sameName {a b : Name} (h : sameName a b = true) : s.find d a = s.find d b := by
  calc s.find d a = s.find d (a.take dirsiz) := find_take.symm
    _ = s.find d (b.take dirsiz) := by rw [decide_eq_true_eq.mp h]
    _ = s.find d b := find_take

theorem Img.Called.entry (hx : s.Called p name x) (h : Whole s) :
    ∃ k nm, Holds s.node p k x ∧ (s.node p).ents[k]? = some ⟨x, nm⟩ ∧ sameName name nm = true := by
  obtain ⟨hinum, k, nm, hk, hsame⟩ := (inodeOf_find h.grown.rows hx.dir hx.nonempty).mp hx.found
  have hge := (h.tidy.dirOk hx.dir).find_ge hx.proper hk hsame
  exact ⟨k, nm, ⟨isDir_iff.mp hx.dir, hge, Nat.ne_of_gt hinum.1, nm, hk⟩, hk, hsame⟩

/-- What a name can lead to: `.`, `..` or a child. -/
theorem descend_cases (h : Whole s) (hc : s.IsDir c) (hnm : nm ≠ []) (hstep : s.descend c nm = some y) :
    (sameName nm dot = true ∧ y = c) ∨
      (sameName nm dotdot = true ∧ (c = root ∧ y = root ∨ Up s.node c y)) ∨
      ∃ k nm', Holds s.node c k y ∧ Up s.node y c ∧
        (s.node c).ents[k]? = some ⟨y, nm'⟩ ∧ sameName nm nm' = true := by
  obtain ⟨hfound, hy⟩ := descend_eq_some.mp hstep
  obtain ⟨hinum, k, nm', hk, hsame⟩ := (inodeOf_find h.grown.rows hc hnm).mp hfound
  have hcdir := isDir_iff.mp hc
  match k with
  | 0 =>
    cases hk.symm.trans (h.grown.rows.listed c hcdir).self
    exact .inl ⟨hsame, rfl⟩
  | 1 =>
    by_cases hroot : c = root
    · subst hroot
      cases hk.symm.trans h.grown.branches.top
      exact .inr (.inl ⟨hsame, .inl ⟨rfl, rfl⟩⟩)
    · obtain ⟨p, hp⟩ := h.grown.branches.dotdot hcdir
      cases hk.symm.trans hp
      exact .inr (.inl ⟨hsame, .inr ⟨hroot, hcdir, hp⟩⟩)
  | k + 2 =>
    have hholds : Holds s.node c (k + 2) y := ⟨hcdir, by omega, Nat.ne_of_gt hinum.1, nm', hk⟩
    have hroot : y ≠ root := by
      rintro rfl
      exact h.grown.branches.first _ _ hholds
    have hup := (h.grown.branches.up (isDir_iff.mp hy) hroot hholds).1
    exact .inr (.inr ⟨k + 2, nm', hholds, hup, hk, hsame⟩)

/-- **One step stays out**: from a directory that is not below `x`, only the name
of `x` leads there. -/
theorem descend_not_below (h : Whole s) (hx : s.Called p name x) (hc : s.IsDir c) (hnm : nm ≠ [])
    (hnot : ¬ ReflTransGen (Up s.node) c x) (hother : ¬ SameSpot (c, nm) (p, name))
    (hstep : s.descend c nm = some y) : ¬ ReflTransGen (Up s.node) y x := by
  intro hbelow
  rcases descend_cases h hc hnm hstep with
    ⟨-, rfl⟩ | ⟨-, ⟨rfl, rfl⟩ | hup⟩ | ⟨k, nm', hholds, hup, hk, hsame⟩
  · exact hnot hbelow
  · exact hnot hbelow
  · exact hnot (.head hup hbelow)
  · rcases ReflTransGen.cases_head hbelow with rfl | ⟨z, hz, hbelow⟩
    · -- a directory has one name
      obtain ⟨k', nm'', hholds', hk', hsame'⟩ := hx.entry h
      obtain ⟨rfl, rfl⟩ := (h.grown.branches.up hup.2.1 hup.1 hholds').2 c k hholds
      cases hk.symm.trans hk'
      exact hother ⟨rfl, sameName_trans hsame (sameName_comm.trans hsame')⟩
    · cases hz.2.2.symm.trans hup.2.2
      exact hnot hbelow

theorem not_below_empty (hempty : ∀ k y, ¬ Holds s.node x k y) (h : Whole s) (hc : c ≠ x) :
    ¬ ReflTransGen (Up s.node) c x := by
  intro hbelow
  rcases ReflTransGen.cases_tail hbelow with heq | ⟨z, -, hup⟩
  · exact hc heq.symm
  · obtain ⟨k, hholds⟩ := h.grown.branches.holds hup
    exact hempty k z hholds

theorem not_below_root (hroot : x ≠ root) : ¬ ReflTransGen (Up s.node) root x := by
  intro hbelow
  rcases ReflTransGen.cases_head hbelow with heq | ⟨z, hup, -⟩
  · exact hroot heq.symm
  · exact hup.1 rfl

/-! ## One entry written -/

/-- The entry `j` of the directory `d` has been written; directories may have gone. -/
structure Edit (s t : Img) (d j : Nat) (e : Dirent) : Prop where
  sb : t.sb = s.sb
  before : Rows s.sb.ninodes s.node
  after : Rows s.sb.ninodes t.node
  dir : ∀ c, t.IsDir c → s.IsDir c
  le : j ≤ (s.node d).ents.length
  ents : ∀ c, t.IsDir c → (t.node c).ents = (setEnt s.node d j e c).ents

theorem Edit.find_new (h : Edit s t d j e) (hd : t.IsDir d) (hnm : nm ≠ []) (he : s.sb.Inum e.inum)
    (hsame : sameName nm e.name = true) : inodeOf (t.find d nm) = some e.inum := by
  rw [inodeOf_find h.after hd hnm, h.sb]
  refine ⟨he, j, e.name, ?_, hsame⟩
  rw [h.ents d hd, ents_setEnt, if_pos rfl, getElem?_setAt h.le, if_pos rfl]

theorem Edit.find_other (h : Edit s t d j e) (hc : t.IsDir c) (hnm : nm ≠ [])
    (hold : c = d → ∀ e₀, (s.node d).ents[j]? = some e₀ → e₀.inum ≠ 0 → sameName nm e₀.name = false)
    (hnew : c = d → e.inum ≠ 0 → sameName nm e.name = false) :
    inodeOf (t.find c nm) = inodeOf (s.find c nm) := by
  ext i
  rw [inodeOf_find h.after hc hnm, inodeOf_find h.before (h.dir c hc) hnm, h.sb, h.ents c hc, ents_setEnt]
  refine and_congr_right fun hi => ?_
  split
  next hcd =>
    subst hcd
    refine exists_congr fun k => exists_congr fun nm' => ?_
    rw [getElem?_setAt h.le]
    split
    next hk =>
      subst hk
      constructor
      · rintro ⟨heq, hsame⟩
        cases heq
        rw [hnew rfl (Nat.ne_of_gt hi.1)] at hsame
        cases hsame
      · rintro ⟨hk, hsame⟩
        rw [hold rfl _ hk (Nat.ne_of_gt hi.1)] at hsame
        cases hsame
    next => rfl
  next => rfl

theorem Edit.find_gone (h : Edit s t d j ⟨0, []⟩) (hd : t.IsDir d) (hnm : nm ≠ [])
    (hold : ∀ e₀, (s.node d).ents[j]? = some e₀ → e₀.inum ≠ 0 ∧ sameName nm e₀.name = true)
    (hlt : j < (s.node d).ents.length) : inodeOf (t.find d nm) = none := by
  rw [Option.eq_none_iff_forall_ne_some]
  intro i hfound
  obtain ⟨hi, k, nm', hk, hsame⟩ := (inodeOf_find h.after hd hnm).mp hfound
  rw [h.ents d hd, ents_setEnt, if_pos rfl, getElem?_setAt h.le] at hk
  split at hk
  next =>
    cases hk
    exact absurd hi.1 (Nat.lt_irrefl 0)
  next hkj =>
    -- two entries of one name
    obtain ⟨hlive, hsame'⟩ := hold _ (List.getElem?_eq_getElem hlt)
    have hd' := h.before.listed d (isDir_iff.mp (h.dir d hd))
    exact hkj (hd'.distinct k j _ _ hk (List.getElem?_eq_getElem hlt) (Nat.ne_of_gt hi.1) hlive
      (sameName_trans (sameName_comm.trans hsame) hsame'))

end Yaos.Fs
