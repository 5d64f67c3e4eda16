import Yaos.Fs.Tidy
import Yaos.Lib.Rooted
import Mathlib.Algebra.BigOperators.Group.Finset.Basic
import Mathlib.Algebra.Order.BigOperators.Group.Finset

/-!
# The tree of directories

Three properties of a table of nodes. `Rows` is about each directory: it names
itself with `.`, its names are distinct, and what it names is in use.
`Branches` is about directories and their parents: each but the root stands in
one entry, of the directory that its `..` names, and following `..` leads to the
root. `Counts` is about `nlink`. One entry that is written (`setEnt`) changes each
of them in a way that is said here once.
-/

namespace Yaos.Fs

open Yaos.Lib Function

/-- The entries of the directory `d`. -/
structure Listed (d : Nat) (l : List Dirent) : Prop where
  self : l[0]? = some ⟨d, dot⟩
  dead : ∀ e ∈ l, e.inum = 0 ↔ e.name = []
  distinct : ∀ (j k : Nat) (e e' : Dirent), l[j]? = some e → l[k]? = some e' → e.inum ≠ 0 → e'.inum ≠ 0 →
    sameName e.name e'.name = true → j = k

/-- The entry `j` of `d`, behind `.` and `..`, names `c`. -/
def Holds (nodes : Nodes) (d j c : Nat) : Prop :=
  (nodes d).type = .dir ∧ 2 ≤ j ∧ c ≠ 0 ∧ ∃ name, (nodes d).ents[j]? = some ⟨c, name⟩

/-- `..` of the directory `c` names `p`. -/
def Up (nodes : Nodes) (c p : Nat) : Prop :=
  c ≠ root ∧ (nodes c).type = .dir ∧ (nodes c).ents[1]? = some ⟨p, dotdot⟩

structure Rows (n : Nat) (nodes : Nodes) : Prop where
  inside : ∀ i, (nodes i).type ≠ .free → 0 < i ∧ i < n
  plain : ∀ i, (nodes i).type ≠ .dir → (nodes i).ents = []
  listed : ∀ d, (nodes d).type = .dir → Listed d (nodes d).ents
  used : ∀ d, (nodes d).type = .dir → ∀ e ∈ (nodes d).ents, e.inum ≠ 0 →
    (nodes e.inum).type ≠ .free

structure Branches (nodes : Nodes) : Prop where
  rootDir : (nodes root).type = .dir
  top : (nodes root).ents[1]? = some ⟨root, dotdot⟩
  first : ∀ d k, ¬ Holds nodes d k root
  parent : ∀ c, (nodes c).type = .dir → c ≠ root → ∃ p j,
    (nodes c).ents[1]? = some ⟨p, dotdot⟩ ∧ ∀ d k, Holds nodes d k c ↔ d = p ∧ k = j
  rooted : ∀ c, (nodes c).type = .dir → Rooted (Up nodes) root c

/-- Whether an entry counts as a link of `c`: all but `.` do. -/
def linksTo (c : Nat) (e : Dirent) : Bool := e.inum = c ∧ e.name ≠ dot

/-- The entries that name `c`, other than `.`. -/
def links (n : Nat) (nodes : Nodes) (c : Nat) : Nat :=
  ∑ d ∈ Finset.range n, (nodes d).ents.countP (linksTo c)

structure Counts (n : Nat) (nodes : Nodes) : Prop where
  fits : ∀ c, (nodes c).type ≠ .free → (nodes c).nlink < 2 ^ 16
  count : ∀ c, (nodes c).type ≠ .free → (nodes c).nlink = links n nodes c
  linked : ∀ c, (nodes c).type ≠ .free → (nodes c).type ≠ .dir → (nodes c).nlink ≠ 0

structure Grown (n : Nat) (nodes : Nodes) : Prop where
  rows : Rows n nodes
  branches : Branches nodes
  counts : Counts n nodes

variable {nodes nodes' : Nodes} {l : List Dirent} {e : Dirent} {d i j k c p x n : Nat} {name : Name}

theorem sameName_comm {a b : Name} : sameName a b = sameName b a := by
  rw [sameName, sameName, decide_eq_decide]
  exact eq_comm

theorem FileType.ne_free_of_dir {type : FileType} (h : type = .dir) : type ≠ .free := by
  rw [h]
  decide

/-! ## Each directory -/

/-- An entry is written behind `.`: it is dead, or its name is a new one. -/
theorem Listed.setAt (h : Listed d l) (hj : 1 ≤ j) (hle : j ≤ l.length)
    (hdead : e.inum = 0 ↔ e.name = [])
    (hnew : e.inum ≠ 0 → ∀ (k : Nat) (e' : Dirent), k ≠ j → l[k]? = some e' → e'.inum ≠ 0 →
      sameName e'.name e.name = false) : Listed d (setAt l j e) where
  self := by
    rw [getElem?_setAt hle, if_neg (by omega)]
    exact h.self
  dead := by
    intro e' he'
    rcases (mem_setAt hle).mp he' with rfl | ⟨k, -, hk⟩
    · exact hdead
    · exact h.dead e' (List.mem_of_getElem? hk)
  distinct := by
    intro j₁ j₂ e₁ e₂ h₁ h₂ hlive₁ hlive₂ hsame
    rw [getElem?_setAt hle] at h₁ h₂
    split at h₁
    next hj₁ =>
      cases h₁
      split at h₂
      next hj₂ => rw [hj₁, hj₂]
      next hj₂ =>
        rw [sameName_comm, hnew hlive₁ j₂ e₂ hj₂ h₂ hlive₂] at hsame
        cases hsame
    next hj₁ =>
      split at h₂
      next hj₂ =>
        cases h₂
        rw [hnew hlive₂ j₁ e₁ hj₁ h₁ hlive₁] at hsame
        cases hsame
      next => exact h.distinct j₁ j₂ e₁ e₂ h₁ h₂ hlive₁ hlive₂ hsame

theorem Rows.setEnt (h : Rows n nodes) (hd : (nodes d).type = .dir) (hj : 1 ≤ j)
    (hle : j ≤ (nodes d).ents.length) (hdead : e.inum = 0 ↔ e.name = [])
    (hnew : e.inum ≠ 0 → ∀ (k : Nat) (e' : Dirent), k ≠ j → (nodes d).ents[k]? = some e' → e'.inum ≠ 0 →
      sameName e'.name e.name = false)
    (hused : e.inum ≠ 0 → (nodes e.inum).type ≠ .free) : Rows n (setEnt nodes d j e) where
  inside i hi := h.inside i (by rwa [type_setEnt] at hi)
  plain i hi := by
    rw [type_setEnt] at hi
    have hid : i ≠ d := by
      rintro rfl
      exact hi hd
    rw [ents_setEnt, if_neg hid, h.plain i hi]
  listed d' hd' := by
    rw [type_setEnt] at hd'
    rw [ents_setEnt]
    split
    next heq =>
      subst heq
      exact (h.listed d' hd').setAt hj hle hdead hnew
    next => exact h.listed d' hd'
  used d' hd' e' he' hlive := by
    rw [type_setEnt] at hd' ⊢
    rw [ents_setEnt] at he'
    split at he'
    next heq =>
      subst heq
      rcases (mem_setAt hle).mp he' with rfl | ⟨k, -, hk⟩
      · exact hused hlive
      · exact h.used d' hd' e' (List.mem_of_getElem? hk) hlive
    next => exact h.used d' hd' e' he' hlive

theorem Rows.clear (h : Rows n nodes) (hd : (nodes d).type = .dir) (hj : 1 ≤ j)
    (hle : j ≤ (nodes d).ents.length) : Rows n (Fs.setEnt nodes d j ⟨0, []⟩) :=
  h.setEnt hd hj hle ⟨fun _ => rfl, fun _ => rfl⟩ (fun h0 => absurd rfl h0) fun h0 => absurd rfl h0

theorem Rows.congr (h : Rows n nodes) (htype : ∀ i, (nodes' i).type = (nodes i).type)
    (hents : ∀ i, (nodes' i).ents = (nodes i).ents) : Rows n nodes' where
  inside i hi := h.inside i (htype i ▸ hi)
  plain i hi := (hents i).trans (h.plain i (htype i ▸ hi))
  listed d hd := hents d ▸ h.listed d (htype d ▸ hd)
  used d hd e he hlive := by
    rw [htype]
    exact h.used d (htype d ▸ hd) e (hents d ▸ he) hlive

/-- A node that nothing names is replaced by one whose entries are in order. -/
theorem Rows.fresh {x : Node} (h : Rows n nodes) (hi : 0 < i ∧ i < n)
    (hnone : ∀ d, (nodes d).type = .dir → d ≠ i → ∀ e ∈ (nodes d).ents, e.inum ≠ i)
    (hplain : x.type ≠ .dir → x.ents = []) (hlisted : x.type = .dir → Listed i x.ents)
    (hused : x.type = .dir → ∀ e ∈ x.ents, e.inum ≠ 0 →
      e.inum = i ∨ (e.inum ≠ i ∧ (nodes e.inum).type ≠ .free)) :
    Rows n (update nodes i x) where
  inside c hc := by
    by_cases hci : c = i
    · exact hci ▸ hi
    · rw [update_of_ne hci] at hc
      exact h.inside c hc
  plain c hc := by
    by_cases hci : c = i
    · subst hci
      rw [update_self] at hc ⊢
      exact hplain hc
    · rw [update_of_ne hci] at hc ⊢
      exact h.plain c hc
  listed d hd := by
    by_cases hdi : d = i
    · subst hdi
      rw [update_self] at hd ⊢
      exact hlisted hd
    · rw [update_of_ne hdi] at hd ⊢
      exact h.listed d hd
  used d hd e he hlive := by
    by_cases hdi : d = i
    · subst hdi
      rw [update_self] at hd he
      rcases hused hd e he hlive with heq | ⟨hne, htype⟩
      · rw [heq, update_self]
        exact FileType.ne_free_of_dir hd
      · rwa [update_of_ne hne]
    · rw [update_of_ne hdi] at hd he
      rw [update_of_ne (hnone d hd hdi e he)]
      exact h.used d hd e he hlive

theorem Rows.not_named (h : Rows n nodes) (hi : (nodes i).type = .free) (h0 : i ≠ 0)
    (hd : (nodes d).type = .dir) (he : e ∈ (nodes d).ents) : e.inum ≠ i := by
  rintro rfl
  exact h.used d hd e he h0 hi

/-! ## Entries that hold a node -/

theorem holds_setEnt (hle : j ≤ (nodes d).ents.length) : Holds (setEnt nodes d j e) x k c ↔
    if x = d ∧ k = j then (nodes d).type = .dir ∧ 2 ≤ j ∧ c ≠ 0 ∧ e.inum = c
    else Holds nodes x k c := by
  by_cases hx : x = d
  · subst hx
    rw [Holds, type_setEnt, ents_setEnt, if_pos rfl, getElem?_setAt hle]
    by_cases hk : k = j
    · subst hk
      rw [if_pos rfl, if_pos ⟨rfl, rfl⟩]
      constructor
      · rintro ⟨hdir, hge, hc, name, hname⟩
        exact ⟨hdir, hge, hc, congrArg Dirent.inum (Option.some.inj hname)⟩
      · rintro ⟨hdir, hge, hc, rfl⟩
        exact ⟨hdir, hge, hc, e.name, rfl⟩
    · rw [if_neg hk, if_neg (by simp [hk])]
      exact Iff.rfl
  · rw [Holds, type_setEnt, ents_setEnt, if_neg hx, if_neg (by simp [hx])]
    exact Iff.rfl

theorem holds_congr (htype : ∀ i, (nodes' i).type = .dir ↔ (nodes i).type = .dir)
    (hents : ∀ i, (nodes i).type = .dir → (nodes' i).ents = (nodes i).ents) :
    Holds nodes' d k c ↔ Holds nodes d k c := by
  rw [Holds, Holds, htype]
  constructor
  · rintro ⟨hdir, hrest⟩
    exact ⟨hdir, hents d hdir ▸ hrest⟩
  · rintro ⟨hdir, hrest⟩
    exact ⟨hdir, (hents d hdir).symm ▸ hrest⟩

theorem Holds.unique (h : Holds nodes d k c) (h' : Holds nodes d k x) : c = x := by
  obtain ⟨-, -, -, name, hname⟩ := h
  obtain ⟨-, -, -, name', hname'⟩ := h'
  cases hname.symm.trans hname'
  rfl

theorem Holds.lt (h : Holds nodes d k c) : k < (nodes d).ents.length := by
  obtain ⟨-, -, -, name, hname⟩ := h
  exact (List.getElem?_eq_some_iff.mp hname).1

/-! ## Parents -/

theorem Branches.dotdot (h : Branches nodes) (hc : (nodes c).type = .dir) :
    ∃ p, (nodes c).ents[1]? = some ⟨p, Fs.dotdot⟩ := by
  by_cases hroot : c = root
  · exact ⟨root, hroot ▸ h.top⟩
  · obtain ⟨p, -, hp, -⟩ := h.parent c hc hroot
    exact ⟨p, hp⟩

theorem Branches.one_lt (h : Branches nodes) (hc : (nodes c).type = .dir) :
    1 < (nodes c).ents.length := by
  obtain ⟨p, hp⟩ := h.dotdot hc
  exact (List.getElem?_eq_some_iff.mp hp).1

theorem Branches.holds (h : Branches nodes) (hup : Up nodes c p) : ∃ j, Holds nodes p j c := by
  obtain ⟨hroot, hdir, hdots⟩ := hup
  obtain ⟨q, j, hq, hiff⟩ := h.parent c hdir hroot
  cases hdots.symm.trans hq
  exact ⟨j, (hiff p j).mpr ⟨rfl, rfl⟩⟩

theorem Branches.up (h : Branches nodes) (hc : (nodes c).type = .dir) (hroot : c ≠ root)
    (hholds : Holds nodes d k c) : Up nodes c d ∧ ∀ x m, Holds nodes x m c → x = d ∧ m = k := by
  obtain ⟨p, j, hp, hiff⟩ := h.parent c hc hroot
  obtain ⟨rfl, rfl⟩ := (hiff d k).mp hholds
  exact ⟨⟨hroot, hc, hp⟩, fun x m hx => (hiff x m).mp hx⟩

theorem Branches.ne_parent (h : Branches nodes) (hc : (nodes c).type = .dir) (hroot : c ≠ root)
    (hholds : Holds nodes d k c) : d ≠ c := by
  rintro rfl
  have hup := (h.up hc hroot hholds).1
  refine hroot ((h.rooted d hc).eq_of_loop fun b hb => ?_)
  have hents := hup.2.2.symm.trans hb.2.2
  cases hents
  rfl

theorem Branches.congr (h : Branches nodes) (htype : ∀ i, (nodes' i).type = .dir ↔ (nodes i).type = .dir)
    (hents : ∀ i, (nodes i).type = .dir → (nodes' i).ents = (nodes i).ents) : Branches nodes' where
  rootDir := (htype root).mpr h.rootDir
  top := (hents root h.rootDir).symm ▸ h.top
  first d k hd := h.first d k ((holds_congr htype hents).mp hd)
  parent c hc hroot := by
    have hdir := (htype c).mp hc
    obtain ⟨p, j, hp, hiff⟩ := h.parent c hdir hroot
    exact ⟨p, j, (hents c hdir).symm ▸ hp, fun d k => (holds_congr htype hents).trans (hiff d k)⟩
  rooted c hc := by
    refine (h.rooted c ((htype c).mp hc)).mono fun a b hup => ?_
    exact ⟨hup.1, (htype a).mpr hup.2.1, (hents a hup.2.1).symm ▸ hup.2.2⟩

theorem ents_setEnt_one (hj : 2 ≤ j) (hle : j ≤ (nodes d).ents.length) :
    (setEnt nodes d j e c).ents[1]? = (nodes c).ents[1]? := by
  rw [ents_setEnt]
  split
  next heq =>
    subst heq
    rw [getElem?_setAt hle, if_neg (by omega)]
  next => rfl

theorem Branches.setEnt (h : Branches nodes) (hj : 2 ≤ j) (hle : j ≤ (nodes d).ents.length)
    (hold : ∀ c, Holds nodes d j c → (nodes c).type ≠ .dir) (hnew : (nodes e.inum).type ≠ .dir) :
    Branches (setEnt nodes d j e) where
  rootDir := by rw [type_setEnt, h.rootDir]
  top := by rw [ents_setEnt_one hj hle, h.top]
  first x k hx := by
    rw [holds_setEnt hle] at hx
    split at hx
    next =>
      rw [hx.2.2.2] at hnew
      exact hnew h.rootDir
    next => exact h.first x k hx
  parent c hc hroot := by
    rw [type_setEnt] at hc
    obtain ⟨p, m, hp, hiff⟩ := h.parent c hc hroot
    refine ⟨p, m, by rw [ents_setEnt_one hj hle, hp], fun x k => ?_⟩
    rw [holds_setEnt hle, ← hiff]
    split
    next heq =>
      obtain ⟨rfl, rfl⟩ := heq
      constructor
      · rintro ⟨-, -, -, rfl⟩
        exact absurd hc hnew
      · intro hx
        exact absurd hc (hold c hx)
    next => exact Iff.rfl
  rooted c hc := by
    rw [type_setEnt] at hc
    refine (h.rooted c hc).mono fun a b hup => ?_
    exact ⟨hup.1, by rw [type_setEnt, hup.2.1], by rw [ents_setEnt_one hj hle, hup.2.2]⟩

end Yaos.Fs
