import Yaos.Fs.Links
import Yaos.Fs.Opfs

/-!
# Directories in order

What the commands rely on, whatever has been done before: a directory begins
with `.` and `..`, its entries name inodes, and none behind these two names the
root. So `dmkparlink` always finds `..`, `do_ls` never follows a number that is
none, and the root is never given back.

`Safe k` is the form in which the commands are proved to keep that and the
blocks in order: with `k` free blocks they do, and they use no more than that;
without, nothing is said.
-/

namespace Yaos.Fs

open Yaos.Lib Prog Function

structure DirOk (sb : Super) (l : List Dirent) : Prop where
  dot : ∃ a, sb.Inum a ∧ l[0]? = some ⟨a, dot⟩
  dotdot : ∃ b, sb.Inum b ∧ l[1]? = some ⟨b, dotdot⟩
  rest : ∀ j e, 2 ≤ j → l[j]? = some e → e.inum ≠ 0 → sb.Inum e.inum ∧ e.inum ≠ root

structure DirsOk (sb : Super) (nodes : Nodes) : Prop where
  rootDir : (nodes root).type = .dir
  dirs : ∀ d, (nodes d).type = .dir → DirOk sb (nodes d).ents

/-- An image with its blocks accounted for and its directories in order. -/
structure Tidy (s : Img) : Prop where
  sound : Sound s
  dirs : DirsOk s.sb s.node

variable {sb : Super} {l : List Dirent} {e : Dirent} {nodes nodes' : Nodes} {s t u : Img}
  {i d ip j p : Nat} {name path : Name}

/-! ## One directory -/

theorem DirOk.two_le (h : DirOk sb l) : 2 ≤ l.length := by
  obtain ⟨b, -, hb⟩ := h.dotdot
  exact (List.getElem?_eq_some_iff.mp hb).1

theorem DirOk.inum_of_live (h : DirOk sb l) (hj : l[j]? = some e) (hlive : e.inum ≠ 0) :
    sb.Inum e.inum := by
  obtain ⟨a, ha, hdot⟩ := h.dot
  obtain ⟨b, hb, hdotdot⟩ := h.dotdot
  match j with
  | 0 =>
    cases hdot.symm.trans hj
    exact ha
  | 1 =>
    cases hdotdot.symm.trans hj
    exact hb
  | j + 2 => exact (h.rest (j + 2) e (by omega) hj hlive).1

theorem DirOk.setAt (h : DirOk sb l) (hj : 2 ≤ j) (hle : j ≤ l.length)
    (he : e.inum ≠ 0 → sb.Inum e.inum ∧ e.inum ≠ root) : DirOk sb (setAt l j e) where
  dot := by
    rw [getElem?_setAt hle, if_neg (by omega)]
    exact h.dot
  dotdot := by
    rw [getElem?_setAt hle, if_neg (by omega)]
    exact h.dotdot
  rest k e' hk hk' := by
    rw [getElem?_setAt hle] at hk'
    split at hk'
    · cases hk'
      exact he
    · exact h.rest k e' hk hk'

theorem DirOk.setAt_dotdot (h : DirOk sb l) (hp : sb.Inum p) :
    DirOk sb (Lib.setAt l 1 ⟨p, Fs.dotdot⟩) where
  dot := by
    rw [getElem?_setAt (Nat.le_of_lt h.two_le), if_neg (by decide)]
    exact h.dot
  dotdot := ⟨p, hp, by rw [getElem?_setAt (Nat.le_of_lt h.two_le), if_pos rfl]⟩
  rest k e' hk hk' := by
    rw [getElem?_setAt (Nat.le_of_lt h.two_le), if_neg (by omega)] at hk'
    exact h.rest k e' hk hk'

theorem DirOk.freeIdx_ge (h : DirOk sb l) (hidx : freeIdx name l 0 = some j) : 2 ≤ j := by
  obtain ⟨m, rfl, -, hdead, -⟩ := freeIdx_eq_some hidx
  obtain ⟨a, ha, hdot⟩ := h.dot
  obtain ⟨b, hb, hdotdot⟩ := h.dotdot
  match m with
  | 0 => exact absurd (hdead _ hdot) (Nat.ne_of_gt ha.1)
  | 1 => exact absurd (hdead _ hdotdot) (Nat.ne_of_gt hb.1)
  | m + 2 => omega

theorem DirOk.find_dotdot (h : DirOk sb l) :
    ∃ b, sb.Inum b ∧ findEntry sb Fs.dotdot l 0 = some (some b, direntSize * 1) := by
  obtain ⟨a, ha, hdot⟩ := h.dot
  obtain ⟨b, hb, hdotdot⟩ := h.dotdot
  match l, hdot, hdotdot with
  | e :: e' :: l, hdot, hdotdot =>
    cases hdot
    cases hdotdot
    refine ⟨b, hb, ?_⟩
    have hdot : ¬ sameName Fs.dotdot Fs.dot = true := by decide
    rw [findEntry, if_neg hdot, findEntry, if_pos (show sameName Fs.dotdot Fs.dotdot = true by decide),
      iget_of_inum hb]

theorem DirOk.find_ge (h : DirOk sb l)
    (hname : ¬ (sameName name Fs.dot = true ∨ sameName name Fs.dotdot = true))
    (hj : l[j]? = some e) (hsame : sameName name e.name = true) : 2 ≤ j := by
  obtain ⟨a, -, hdot⟩ := h.dot
  obtain ⟨b, -, hdotdot⟩ := h.dotdot
  match j with
  | 0 =>
    cases hdot.symm.trans hj
    exact absurd (.inl hsame) hname
  | 1 =>
    cases hdotdot.symm.trans hj
    exact absurd (.inr hsame) hname
  | j + 2 => omega

/-! ## The table -/

theorem DirsOk.update {n : Node} (h : DirsOk sb nodes) (htype : n.type = (nodes d).type)
    (hents : n.type = .dir → DirOk sb n.ents) : DirsOk sb (update nodes d n) where
  rootDir := by
    by_cases hd : root = d
    · rw [← hd, update_self, htype, ← hd]
      exact h.rootDir
    · rw [update_of_ne hd]
      exact h.rootDir
  dirs c hc := by
    by_cases hd : c = d
    · subst hd
      rw [update_self] at hc ⊢
      exact hents hc
    · rw [update_of_ne hd] at hc ⊢
      exact h.dirs c hc

theorem DirsOk.setEnt (h : DirsOk sb nodes) (hj : 2 ≤ j) (hle : j ≤ (nodes d).ents.length)
    (he : e.inum ≠ 0 → sb.Inum e.inum ∧ e.inum ≠ root) : DirsOk sb (setEnt nodes d j e) :=
  h.update rfl fun hd => (h.dirs d hd).setAt hj hle he

theorem DirsOk.setDotdot (h : DirsOk sb nodes) (hp : sb.Inum p) :
    DirsOk sb (Fs.setEnt nodes d 1 ⟨p, dotdot⟩) :=
  h.update rfl fun hd => (h.dirs d hd).setAt_dotdot hp

theorem DirsOk.addLink (h : DirsOk sb nodes) : DirsOk sb (addLink nodes i) :=
  h.update rfl (h.dirs i)

theorem DirsOk.subLink (h : DirsOk sb nodes) : DirsOk sb (subLink nodes i) :=
  h.update rfl (h.dirs i)

theorem DirsOk.gone (h : DirsOk sb nodes) (hi : i ≠ root) :
    DirsOk sb (Function.update nodes i .gone) where
  rootDir := by
    rw [update_of_ne hi.symm]
    exact h.rootDir
  dirs c hc := by
    by_cases hci : c = i
    · rw [hci, update_self] at hc
      cases hc
    · rw [update_of_ne hci] at hc ⊢
      exact h.dirs c hc

theorem DirsOk.dropped (h : DirsOk sb nodes) (hi : i ≠ root) (up : Bool) :
    DirsOk sb (dropped nodes up d i) := by
  have hfirst : DirsOk sb (if up then Fs.subLink nodes d else nodes) := by
    cases up with
    | true => exact h.subLink
    | false => exact h
  rw [Fs.dropped]
  generalize (if up then Fs.subLink nodes d else nodes) = nodes at hfirst
  rw [reap]
  split
  · exact hfirst.subLink.gone hi
  · exact hfirst.subLink

theorem DirsOk.unlinked (h : DirsOk sb nodes) (hj : 2 ≤ j) (hle : j ≤ (nodes d).ents.length)
    (hi : i ≠ root) : DirsOk sb (unlinked sb nodes d j i) :=
  (h.setEnt hj hle fun h0 => absurd rfl h0).dropped hi _

theorem inum_stored (hi : i < 2 ^ 16) : (Dirent.stored ⟨i, name⟩).inum = i :=
  inum_ofBytes_toBytes hi

theorem stored_eq (hi : i < 2 ^ 16) (hname : 0 ∉ name) :
    Dirent.stored ⟨i, name⟩ = ⟨i, name.take dirsiz⟩ := by
  have hinum : (Dirent.stored ⟨i, name⟩).inum = i := inum_stored hi
  have hname : (Dirent.stored ⟨i, name⟩).name = name.take dirsiz := name_ofBytes_toBytes hname
  cases hst : Dirent.stored ⟨i, name⟩
  rw [hst] at hinum hname
  rw [← hinum, ← hname]

theorem stored_dotdot (hi : i < 2 ^ 16) : Dirent.stored ⟨i, dotdot⟩ = ⟨i, dotdot⟩ :=
  stored_eq hi (by decide)

theorem stored_dot (hi : i < 2 ^ 16) : Dirent.stored ⟨i, dot⟩ = ⟨i, dot⟩ :=
  stored_eq hi (by decide)

theorem DirsOk.added (h : DirsOk sb nodes) (hj : 2 ≤ j) (hle : j ≤ (nodes d).ents.length)
    (hi : sb.Inum i) (hroot : i ≠ root) (h16 : i < 2 ^ 16) : DirsOk sb (added nodes d j name i) := by
  have hent : DirsOk sb (Fs.setEnt nodes d j (Dirent.stored ⟨i, name⟩)) :=
    h.setEnt hj hle fun _ => by
      rw [inum_stored h16]
      exact ⟨hi, hroot⟩
  rw [Fs.added]
  split
  · exact hent
  · exact hent.addLink

end Yaos.Fs
