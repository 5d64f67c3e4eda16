import Yaos.Fs.Accounting
import Yaos.Fs.Renames

/-!
# The tree of directories over whole runs of `opfs`

`IsTree` is what `fsck` would check of the directories. It holds in every image
of a run of commands that succeed and whose conditions (`Cmd.Ok`) are met; a
directory that is moved below itself is lost.
-/

namespace Yaos.Fs

open Yaos.Lib Prog Relation

/-- The entry `j` of the directory `d` names `c`, and it is neither `.` nor `..`. -/
def Img.Child (s : Img) (d j c : Nat) : Prop :=
  s.IsDir d ∧ c ≠ 0 ∧ ∃ name, (s.node d).ents[j]? = some ⟨c, name⟩ ∧ name ≠ dot ∧ name ≠ dotdot

/-- The directories that are reachable from the root form a tree. -/
structure IsTree (s : Img) : Prop where
  /-- every inode in use is reachable -/
  reachable : ∀ i, s.sb.Inum i → (s.inode i).type ≠ .free →
    ReflTransGen (fun d c => ∃ j, s.Child d j c) root i
  /-- no entry names the root, and its `..` is itself -/
  top : (∀ d j, ¬ s.Child d j root) ∧ inodeOf (s.find root dotdot) = some root
  /-- any other directory is named by one entry, in the directory that its `..` names -/
  parent : ∀ c, s.IsDir c → c ≠ root → ∃ p j, inodeOf (s.find c dotdot) = some p ∧
    ∀ d k, s.Child d k c ↔ d = p ∧ k = j
  /-- no two entries in use have the same name -/
  distinct : ∀ (d j k : Nat) (e e' : Dirent), s.IsDir d → (s.node d).ents[j]? = some e →
    (s.node d).ents[k]? = some e' → e.inum ≠ 0 → e'.inum ≠ 0 → sameName e.name e'.name = true → j = k
  /-- none has an empty name -/
  named : ∀ d, s.IsDir d → ∀ e ∈ (s.node d).ents, e.inum ≠ 0 → e.name ≠ []
  /-- `nlink` counts the entries other than `.` -/
  nlink : ∀ i, s.sb.Inum i → (s.inode i).type ≠ .free →
    (s.inode i).nlink = links s.sb.ninodes s.node i

variable {s t : Img} {sb : Super} {d i j k c p : Nat}

/-! ## Images in order are trees -/

theorem Whole.child_iff (h : Whole s) : s.Child d j c ↔ Holds s.node d j c := by
  constructor
  · rintro ⟨hd, hc, name, hname, hdot, hdotdot⟩
    refine ⟨isDir_iff.mp hd, ?_, hc, name, hname⟩
    match j with
    | 0 =>
      cases hname.symm.trans (h.grown.rows.listed d (isDir_iff.mp hd)).self
      exact absurd rfl hdot
    | 1 =>
      obtain ⟨p, hp⟩ := h.grown.branches.dotdot (isDir_iff.mp hd)
      cases hname.symm.trans hp
      exact absurd rfl hdotdot
    | j + 2 => omega
  · intro hholds
    obtain ⟨hdir, hge, hc, name, hname⟩ := hholds
    refine ⟨isDir_iff.mpr hdir, hc, name, hname, h.grown.rows.holds_ne_dot ⟨hdir, hge, hc, name, hname⟩ hname, ?_⟩
    rintro rfl
    obtain ⟨p, hp⟩ := h.grown.branches.dotdot hdir
    have htype := h.grown.branches.type_dotdot hdir hp
    have hpos := (isDir_iff.mpr htype).1.1
    have heq := (h.grown.rows.listed d hdir).distinct j 1 _ _ hname hp hc (Nat.ne_of_gt hpos)
      (show sameName dotdot dotdot = true by decide)
    omega

theorem Whole.find_dotdot (h : Whole s) (hc : s.IsDir c) (hp : (s.node c).ents[1]? = some ⟨p, dotdot⟩) :
    inodeOf (s.find c dotdot) = some p := by
  have htype := h.grown.branches.type_dotdot (isDir_iff.mp hc) hp
  rw [inodeOf_find h.grown.rows hc (by decide)]
  exact ⟨(isDir_iff.mpr htype).1, 1, dotdot, hp, by decide⟩

theorem Whole.reachable_dir (h : Whole s) (hc : (s.node c).type = .dir) :
    ReflTransGen (fun d c => ∃ j, s.Child d j c) root c := by
  have hroot := h.grown.branches.rooted c hc
  induction hroot using ReflTransGen.head_induction_on with
  | refl => exact ReflTransGen.refl
  | @head a b hab _ ih =>
    obtain ⟨j, hj⟩ := h.grown.branches.holds hab
    exact (ih hj.1).tail ⟨j, h.child_iff.mpr hj⟩

theorem Whole.holds_file (h : Whole s) (hi : (s.node i).type ≠ .free) (hfile : (s.node i).type ≠ .dir) :
    ∃ d j, Holds s.node d j i := by
  have h0 := (h.grown.rows.inside i hi).1
  by_contra hnone
  have hzero : links s.sb.ninodes s.node i = 0 := by
    rw [links_eq_zero]
    intro d _ e he
    by_contra hlinks
    have hlinks : e.inum = i ∧ e.name ≠ dot := by simpa [linksTo] using hlinks
    obtain ⟨hinum, hdot⟩ := hlinks
    by_cases hd : (s.node d).type = .dir
    · obtain ⟨k, hk⟩ := List.mem_iff_getElem?.mp he
      refine hnone ⟨d, k, hd, ?_, Nat.ne_of_gt h0, e.name, by rw [hk, ← hinum]⟩
      obtain rfl | rfl | hlater : k = 0 ∨ k = 1 ∨ 2 ≤ k := by omega
      · cases hk.symm.trans (h.grown.rows.listed d hd).self
        exact absurd rfl hdot
      · obtain ⟨p, hp⟩ := h.grown.branches.dotdot hd
        cases hk.symm.trans hp
        subst hinum
        exact absurd (h.grown.branches.type_dotdot hd hp) hfile
      · exact hlater
    · rw [h.grown.rows.plain d hd] at he
      cases he
  exact h.grown.counts.linked i hi hfile ((h.grown.counts.count i hi).trans hzero)

theorem Whole.isTree (h : Whole s) : IsTree s where
  reachable i hi hfree := by
    rw [← type_of_inum hi] at hfree
    by_cases hdir : (s.node i).type = .dir
    · exact h.reachable_dir hdir
    · obtain ⟨d, j, hholds⟩ := h.holds_file hfree hdir
      exact (h.reachable_dir hholds.1).tail ⟨j, h.child_iff.mpr hholds⟩
  top := ⟨fun d j hchild => h.grown.branches.first d j (h.child_iff.mp hchild),
    h.find_dotdot h.tidy.isDir_root h.grown.branches.top⟩
  parent c hc hroot := by
    obtain ⟨p, j, hp, hiff⟩ := h.grown.branches.parent c (isDir_iff.mp hc) hroot
    exact ⟨p, j, h.find_dotdot hc hp, fun d k => h.child_iff.trans (hiff d k)⟩
  distinct d j k e e' hd := (h.grown.rows.listed d (isDir_iff.mp hd)).distinct j k e e'
  named d hd e he hlive hnil :=
    hlive (((h.grown.rows.listed d (isDir_iff.mp hd)).dead e he).mpr hnil)
  nlink i hi hfree := by
    rw [← type_of_inum hi] at hfree
    rw [← h.grown.counts.count i hfree, node_of_inum hi]
    rfl

/-! ## The image that `mkfs` writes -/

theorem dead_of_rootEnts {e : Dirent} (hj : 2 ≤ j) (he : rootEnts[j]? = some e) : e = ⟨0, []⟩ := by
  obtain ⟨m, rfl⟩ : ∃ m, j = m + 2 := ⟨j - 2, by omega⟩
  exact List.eq_of_mem_replicate (n := 30) (List.mem_of_getElem? he)

theorem listed_rootEnts : Listed root rootEnts where
  self := rfl
  dead := by decide
  distinct := by
    intro j k e e' hj hk hlive hlive' hsame
    have hlow : ∀ {m : Nat} {e : Dirent}, rootEnts[m]? = some e → e.inum ≠ 0 → m < 2 := by
      intro m e hm hlive
      by_contra hge
      rw [dead_of_rootEnts (by omega) hm] at hlive
      exact hlive rfl
    have hfirst : ∀ {m : Nat}, m < 2 → rootEnts[m]? = [(⟨root, dot⟩ : Dirent), ⟨root, dotdot⟩][m]? := by
      intro m hm
      match m with
      | 0 => rfl
      | 1 => rfl
    rw [hfirst (hlow hj hlive)] at hj
    rw [hfirst (hlow hk hlive')] at hk
    exact (listed_new (by decide) (by decide)).distinct j k e e' hj hk hlive hlive' hsame

theorem in_use_formatted (hi : ((formatted sb).node i).type ≠ .free) : i = root := by
  by_contra hne
  by_cases hin : (formatted sb).sb.Inum i
  · rw [type_of_inum hin, inode_formatted_of_ne hne] at hi
    exact hi rfl
  · rw [Img.node, if_neg hin] at hi
    exact hi rfl

theorem ents_of_not_dir (hi : (s.node i).type ≠ .dir) : (s.node i).ents = [] := by
  rw [Img.node] at hi ⊢
  split
  next hin =>
    rw [if_pos hin] at hi
    exact if_neg hi
  next => rfl

theorem rows_formatted (h : Layout sb) : Rows sb.ninodes (formatted sb).node where
  inside i hi := by
    rw [in_use_formatted hi]
    exact ⟨Nat.one_pos, h.root⟩
  plain i hi := ents_of_not_dir hi
  listed d hd := by
    rw [type_formatted hd, ents_formatted h]
    exact listed_rootEnts
  used d hd e he hlive := by
    rw [type_formatted hd, ents_formatted h] at he
    have hroot : ∀ e ∈ rootEnts, e.inum ≠ 0 → e.inum = root := by decide
    rw [hroot e he hlive]
    exact FileType.ne_free_of_dir (isDir_iff.mp (isDir_formatted h))

theorem branches_formatted (h : Layout sb) : Branches (formatted sb).node where
  rootDir := isDir_iff.mp (isDir_formatted h)
  top := by
    rw [ents_formatted h]
    rfl
  first d k := by
    rintro ⟨hd, hk, -, name, hname⟩
    rw [type_formatted hd, ents_formatted h] at hname
    cases dead_of_rootEnts hk hname
  parent c hc hroot := absurd (type_formatted hc) hroot
  rooted c hc := by
    rw [type_formatted hc]
    exact Rooted.refl

theorem counts_formatted (h : Layout sb) : Counts sb.ninodes (formatted sb).node := by
  have hnlink : ((formatted sb).node root).nlink = 1 := by
    rw [node_of_inum (isDir_formatted h).1]
    rfl
  refine ⟨fun c hc => ?_, fun c hc => ?_, fun c hc hfile => ?_⟩
  · rw [in_use_formatted hc, hnlink]
    decide
  · rw [in_use_formatted hc, hnlink, links, Finset.sum_eq_single root]
    · rw [ents_formatted h]
      decide
    · intro d _ hne
      rw [ents_of_not_dir fun hd => hne (type_formatted hd)]
      rfl
    · intro hno
      exact absurd (Finset.mem_range.mpr h.root) hno
  · rw [in_use_formatted hc, hnlink]
    decide

/-- **What `mkfs` writes is a tree.** -/
theorem whole_formatted (h : Layout sb) (hn : 0 < sb.nblocks) : Whole (formatted sb) :=
  ⟨tidy_formatted h hn, rows_formatted h, branches_formatted h, counts_formatted h⟩

/-! ## Every run -/

def Succeeds (s : Img) (c : Cmd) (t : Img) : Prop := status c s = .success ∧ t = (exec c s).2

theorem Succeeds.exec {c : Cmd} (h : Succeeds s c t) : exec c s = (.ok .success, t) := by
  obtain ⟨hstatus, rfl⟩ := h
  rw [status] at hstatus
  split at hstatus
  next st heq => exact Prod.ext (heq.trans (congrArg _ hstatus)) rfl
  next => cases hstatus

/-- **The directories form a tree** in every run of commands that succeed and
whose conditions are met. -/
theorem directories_form_tree {tr : List (Taken Img Cmd)} (h : Whole s)
    (hrun : Trace Succeeds s tr t) (hok : ∀ x ∈ tr, x.label.Ok x.pre) :
    IsTree t ∧ ∀ x ∈ tr, IsTree x.pre ∧ IsTree x.post := by
  obtain ⟨hend, hall⟩ := hrun.invariant Whole (fun u c => c.Ok u)
    (fun hwhole hok hstep => hwhole.exec hstep.exec hok) h hok
  exact ⟨hend.isTree, fun x hx => ⟨(hall x hx).1.isTree, (hall x hx).2.isTree⟩⟩

/-- `mkdir a`, on the image that `mkfs` writes. -/
def mkdirA : Img := (exec (.mkdir [97]) (formatted (small 8))).2

/-- Then `mv a b`. -/
def renamedA : Img := (exec (.mv [97] [98]) mkdirA).2

/-- Or `mv a a/b`. -/
def movedBelow : Img := (exec (.mv [97] [97, 47, 98]) mkdirA).2

theorem whole_small : Whole (formatted (small 8)) :=
  whole_formatted (layout_small (by decide)) (by decide)

theorem succeeds_mkdirA : Succeeds (formatted (small 8)) (.mkdir [97]) mkdirA :=
  ⟨by decide +kernel, rfl⟩

theorem directories_form_tree_rename : Succeeds mkdirA (.mv [97] [98]) renamedA ∧ IsTree renamedA := by
  have hmv : Succeeds mkdirA (.mv [97] [98]) renamedA := ⟨by decide +kernel, rfl⟩
  refine ⟨hmv, (directories_form_tree whole_small (.step succeeds_mkdirA (.step hmv (.done _))) ?_).1⟩
  rw [List.forall_mem_cons, List.forall_mem_singleton]
  constructor
  · have hsite : (formatted (small 8)).site root [97] = some (root, [97]) := by decide +kernel
    have hroom : (formatted (small 8)).HasRoom root := by decide +kernel
    refine ⟨by decide, fun d name hd => ?_⟩
    cases hsite.symm.trans hd
    exact hroom
  · have hres : mkdirA.resolve [97] = some 2 := by decide +kernel
    have hsite : mkdirA.moveSite [97] [98] = some (root, [98]) := by decide +kernel
    have hnone : mkdirA.find root [98] = none := by decide +kernel
    refine ⟨by decide, by decide, fun _ => by unfold DirFits; decide, fun sip d name hsip hd => ?_⟩
    cases hres.symm.trans hsip
    cases hsite.symm.trans hd
    refine ⟨fun _ => by decide, fun _ hup => ?_, fun _ => by decide +kernel, fun k ip hfind => ?_,
      fun ip hfind => ?_⟩
    · -- nothing is above the root
      rcases ReflTransGen.cases_head hup with hbad | ⟨c, hc, -⟩
      · cases hbad
      · exact hc.1 rfl
    · rw [hnone] at hfind
      cases hfind
    · rw [hnone] at hfind
      cases hfind

/-- A directory that is moved below itself is lost: inode 2 is in use, and the
root has no entry but `.` and `..`. -/
theorem lost_below_itself : Whole (formatted (small 8)) ∧
    Succeeds (formatted (small 8)) (.mkdir [97]) mkdirA ∧
    Succeeds mkdirA (.mv [97] [97, 47, 98]) movedBelow ∧ ¬ IsTree movedBelow := by
  refine ⟨whole_small, succeeds_mkdirA, ⟨by decide +kernel, rfl⟩, fun htree => ?_⟩
  have hreach := htree.reachable 2 (by decide +kernel) (by decide +kernel)
  have hroot : ∀ e ∈ (movedBelow.node root).ents, e.inum = 0 ∨ e.name = dot ∨ e.name = dotdot := by
    decide +kernel
  rcases ReflTransGen.cases_head hreach with hbad | ⟨c, ⟨j, -, hc, name, hname, hdot, hdotdot⟩, -⟩
  · cases hbad
  · rcases hroot _ (List.mem_of_getElem? hname) with h0 | hname' | hname'
    · exact hc h0
    · exact hdot hname'
    · exact hdotdot hname'

end Yaos.Fs
