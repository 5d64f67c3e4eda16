import Yaos.Fs.Relinks

/-!
# Moves that go wrong

`do_mv` drops the results of `daddent` and `iunlink`. What it leaves when they have
not done what they should: the entry is not made, or not in the directory it
should be in; the old path ends with `.` or `..`, or it leads elsewhere when the
new entry is there, so the old entry stays; or both paths name one entry, which
is taken away first.
-/

namespace Yaos.Fs

open Yaos.Lib Relation

variable {s t u v w : Img} {c d i ip j k m n p sd sj sip x : Nat} {name nm sname spath : Name}
  {e : Dirent} {nodes : Nodes}

/-! ## The old path leads elsewhere -/

theorem Grown.two_le_links (h : Grown n nodes) (hup : Up nodes c p) (hp : p ≠ root) :
    2 ≤ links n nodes p := by
  have hpdir := h.branches.type_dotdot hup.2.1 hup.2.2
  obtain ⟨q, m, -, hiff⟩ := h.branches.parent p hpdir hp
  have hholds := (hiff q m).mpr ⟨rfl, rfl⟩
  have hclear := links_clear h.rows hholds hholds.2.2.1
  rw [if_pos rfl] at hclear
  -- without its own entry it has the link of `..`
  have hrest : links n (setEnt nodes q m ⟨0, []⟩) p ≠ 0 := by
    rw [Ne, links_eq_zero]
    intro hnone
    have hone := hup.2.2
    rw [← ents_setEnt_one hholds.2.1 (Nat.le_of_lt hholds.lt)] at hone
    have hlink := hnone c (h.rows.inside c (FileType.ne_free_of_dir hup.2.1)).2 _
      (List.mem_of_getElem? hone)
    rw [linksTo_of_ne (by decide)] at hlink
    simp at hlink
  omega

theorem ents_unlinked_of_links {sb : Super} (hne : i ≠ d) (h2 : 2 ≤ (nodes i).nlink)
    (hlt : (nodes i).nlink < 2 ^ 16) : (unlinked sb nodes d j i i).ents = (nodes i).ents := by
  have hnlink : ∀ up : Bool, ((if up then subLink (setEnt nodes d j ⟨0, []⟩) d
      else setEnt nodes d j ⟨0, []⟩) i).nlink = (nodes i).nlink := by
    rintro (_ | _)
    · rw [if_neg (by decide), nlink_setEnt]
    · rw [if_pos rfl, nlink_subLink, if_neg hne, nlink_setEnt]
  have hused : (unlinked sb nodes d j i i).ents = (setEnt nodes d j ⟨0, []⟩ i).ents := by
    rw [unlinked, dropped, reap_of_ne_zero, ents_subLink]
    · split
      · exact ents_subLink
      · rfl
    · rw [nlink_subLink, if_pos rfl, hnlink]
      omega
  rw [hused, ents_setEnt, if_neg hne]

/-- The old entry of a directory stays if the old path does not lead to it. -/
theorem Graft.stays (h : Graft s w u sd sname d j name sip) (hsip : s.IsDir sip)
    (hlast : sname = lastName spath)
    (hwalk : u.spot spath ≠ some (sd, sname)) (huv : Kept u v)
    (hun : Unlinks u v root spath) (hvt : Kept v t) (hpar : Reparented v t d sip) :
    inodeOf (t.find sd sname) = some sip := by
  obtain ⟨sj, nm, hholds, -, -⟩ := h.entry
  have hw := h.enters.whole
  have hdir : (w.node sip).type = .dir := isDir_iff.mp (h.enters.isDir.mp (h.isDir_sip.mpr hsip))
  have hsd : sd ≠ sip := by
    rintro rfl
    exact hw.grown.branches.ne_parent hholds.1 h.ne_root hholds rfl
  have hents : (v.node sd).ents = (u.node sd).ents := by
    by_cases hnamed : ∃ c m i, u.Names root spath c m i
    · obtain ⟨c, m, i, hn⟩ := hnamed
      obtain ⟨-, -, -, -, hroot, -⟩ := hn.spec h.enters.kept.tidy h.enters.kept.tidy.isDir_root
      rw [hun.node c m i hn]
      have hc : sd ≠ c := by
        rintro rfl
        obtain ⟨nm', hwalk', -⟩ := hn
        rw [Img.spot, hwalk', walk_baseName hwalk', hlast] at hwalk
        exact hwalk rfl
      by_cases hi : sd = i
      · -- what is taken away is the directory of the entry, which has one in it
        subst hi
        have hup := (hw.grown.branches.up hdir h.ne_root hholds).1
        have hlinks := hw.grown.two_le_links hup hroot
        have hused := FileType.ne_free_of_dir hholds.1
        have hnlink : (u.node sd).nlink = (w.node sd).nlink := by
          rw [h.enters.node, nlink_added h.enters.stores.ne_dot, if_neg hsd]
        refine ents_unlinked_of_links hc ?_ ?_
        · rw [hnlink, hw.grown.counts.count sd hused]
          exact hlinks
        · rw [hnlink]
          exact hw.grown.counts.fits sd hused
      · rw [ents_unlinked hi, ents_setEnt, if_neg hc]
    · rw [hun.same fun c m i hn => hnamed ⟨c, m, i, hn⟩]
  have hfind : t.find sd sname = u.find sd sname := by
    rw [Img.find, Img.find, hpar.ents hsd, hents, hvt.sb, huv.sb]
  have hother : ¬ SameSpot (sd, sname) (d, name) := fun hsame =>
    h.other ⟨hsame.1.symm, sameName_comm.trans hsame.2⟩
  rw [hfind, h.find_rest (h.isDir.mpr ⟨h.source.dir, h.ne_sd⟩) h.source.nonempty hother, h.source.found]

/-! ## The entry is not made -/

/-- An entry in use was there before the old one was cleared, and it is not the
one that the old path names, but for `..` of what is moved. -/
theorem entry_of_moved (hun : Unlinks u v root spath) (hu : Tidy u) (hv : Tidy v)
    (hpar : Reparented v t d sip) (hm : (t.node c).ents[m]? = some e) (hlive : e.inum ≠ 0) :
    (u.node c).ents[m]? = some e ∧ (∀ i, ¬ u.Names root spath c m i) ∨
      c = sip ∧ m = 1 ∧ e = ⟨d, dotdot⟩ := by
  -- before `..` was written
  have hbefore : (v.node c).ents[m]? = some e ∨ c = sip ∧ m = 1 ∧ e = ⟨d, dotdot⟩ := by
    by_cases hc : c = sip
    · subst hc
      by_cases hdirs : v.IsDir d ∧ v.IsDir c
      · rw [hpar.dir hdirs.1 hdirs.2, ents_addLink, ents_setEnt, if_pos rfl,
          getElem?_setAt (Nat.le_of_lt (hv.dirOk hdirs.2).two_le)] at hm
        split at hm
        next hone => exact .inr ⟨rfl, hone, (Option.some.inj hm).symm⟩
        next => exact .inl hm
      · rcases not_and_or.mp hdirs with hd | hc
        · exact .inl (hpar.other hd ▸ hm)
        · exact .inl (hpar.file hc ▸ hm)
    · rw [hpar.ents hc] at hm
      exact .inl hm
  refine hbefore.imp_left fun hm => ?_
  by_cases hnamed : ∃ c' m' i, u.Names root spath c' m' i
  · obtain ⟨c', m', i, hn⟩ := hnamed
    obtain ⟨-, -, hlt, -⟩ := hn.spec hu hu.isDir_root
    rw [hun.node c' m' i hn] at hm
    rcases ents_unlinked_cases with hnil | hents
    · rw [hnil] at hm
      cases hm
    rw [hents, ents_setEnt] at hm
    have hother : (u.node c).ents[m]? = some e ∧ ¬ (c = c' ∧ m = m') := by
      split at hm
      next heq =>
        subst heq
        rw [getElem?_setAt (Nat.le_of_lt hlt)] at hm
        split at hm
        next =>
          cases hm
          exact absurd rfl hlive
        next hne => exact ⟨hm, fun hboth => hne hboth.2⟩
      next hne => exact ⟨hm, fun hboth => hne hboth.1⟩
    refine ⟨hother.1, fun i' hn' => hother.2 ?_⟩
    obtain ⟨hc, hm', -⟩ := hn.unique hn'
    exact ⟨hc, hm'⟩
  · rw [hun.same fun c' m' i hn => hnamed ⟨c', m', i, hn⟩] at hm
    exact ⟨hm, fun i hn => hnamed ⟨c, m, i, hn⟩⟩

theorem Entered.entry (h : Entered w u d name sip) (hm : (u.node c).ents[m]? = some e) :
    (w.node c).ents[m]? = some e ∨ c = d ∧ w.place d name = some m := by
  rw [Entered] at h
  cases hplace : w.place d name with
  | none =>
    rw [h, hplace] at hm
    exact .inl hm
  | some j =>
    rw [h, hplace, Option.elim_some, ents_added] at hm
    split at hm
    next hc =>
      subst hc
      rw [getElem?_setAt (place_eq_some hplace).2.2] at hm
      split at hm
      next hmj => exact .inr ⟨rfl, hmj ▸ rfl⟩
      next => exact .inl hm
    next => exact .inl hm

/-- A name that is not there before `daddent` is not there at the end, unless it is
the one that is entered and the old path does not take it away again. -/
theorem Moved.not_found (hmoved : Moved w t d name sip spath) (hw : Whole w) (hx : w.IsDir x)
    (hnm : nm ≠ []) (hnone : inodeOf (w.find x nm) = none)
    (hnew : ∀ u m, Kept w u → Entered w u d name sip → w.place d name = some m → x = d →
      ∃ i, u.Names root spath d m i) : inodeOf (t.find x nm) = none := by
  obtain ⟨v, ⟨u, hwu, hentered, -, huv, hun⟩, hvt, hpar⟩ := hmoved
  rw [Option.eq_none_iff_forall_ne_some]
  intro i hfound
  obtain ⟨off, hfind⟩ := inodeOf_eq_some hfound
  obtain ⟨hi, m, nm', hm, hsame, -⟩ := find_eq_some hfind
  have hlive : i ≠ 0 := Nat.ne_of_gt hi.1
  rcases entry_of_moved hun hwu.tidy huv.tidy hpar hm hlive with ⟨hm, hother⟩ | ⟨-, -, heq⟩
  · rcases hentered.entry hm with hm | ⟨hxd, hplace⟩
    · have hdiff := (find_none hw.grown.rows hx hnm hw.tidy).mp hnone _ (List.mem_of_getElem? hm) hlive
      rw [sameName_comm, hsame] at hdiff
      cases hdiff
    · obtain ⟨i', hn⟩ := hnew u m hwu hentered hplace hxd
      exact hother i' (hxd ▸ hn)
  · cases heq
    exact hw.not_dots hx hnm hnone (.inr hsame)

/-! ## The old path ends with `.` or `..` -/

theorem find_first (hk : (s.node d).ents[k]? = some e) (hi : s.sb.Inum e.inum)
    (hsame : sameName nm e.name = true)
    (hbefore : ∀ e' ∈ (s.node d).ents.take k, sameName nm e'.name = false) :
    inodeOf (s.find d nm) = some e.inum := by
  rw [Img.find, findEntry_of_first hk hsame hbefore, iget_of_inum hi]
  rfl

theorem not_dot_of_dotdot (h : sameName nm dotdot = true) : sameName nm dot = false := by
  rw [Bool.eq_false_iff]
  intro hdot
  have hboth := sameName_trans (sameName_comm.trans hdot) h
  revert hboth
  decide

theorem find_dot (h : Tidy s) (hd : s.IsDir d) (hnm : sameName nm dot = true) :
    ∃ a, a ≠ 0 ∧ (s.node d).ents[0]? = some ⟨a, dot⟩ ∧ inodeOf (s.find d nm) = some a := by
  obtain ⟨a, ha, h0⟩ := (h.dirOk hd).dot
  exact ⟨a, Nat.ne_of_gt ha.1, h0, find_first h0 ha hnm (by simp)⟩

theorem find_dotdot (h : Tidy s) (hd : s.IsDir d) (hnm : sameName nm dotdot = true) :
    ∃ b, b ≠ 0 ∧ (s.node d).ents[1]? = some ⟨b, dotdot⟩ ∧ inodeOf (s.find d nm) = some b := by
  obtain ⟨a, -, h0⟩ := (h.dirOk hd).dot
  obtain ⟨b, hb, h1⟩ := (h.dirOk hd).dotdot
  refine ⟨b, Nat.ne_of_gt hb.1, h1, find_first h1 hb hnm fun e' he' => ?_⟩
  obtain ⟨k, hk⟩ := List.mem_iff_getElem?.mp he'
  rw [List.getElem?_take] at hk
  split at hk
  next hlt =>
    obtain rfl : k = 0 := by omega
    cases hk.symm.trans h0
    exact not_dot_of_dotdot hnm
  next => cases hk

theorem Moved.improper (hmoved : Moved s t d name sip spath) (hs : Whole s) (hd : s.IsDir d)
    (hres : s.resolve spath = some sip) (hroot : sip ≠ root) (hp : ¬ Proper spath) :
    (s.spot spath).bind t.at = some sip := by
  obtain ⟨v, ⟨u, hsu, hentered, -, huv, hun⟩, hvt, hpar⟩ := hmoved
  obtain ⟨c, hwalk, hat⟩ := resolve_base hres
  have hc := walk_isDir _ _ _ hs.tidy.isDir_root hwalk
  rw [hwalk, Option.bind_some]
  by_cases hbase : baseName spath = []
  · rw [hbase] at hat ⊢
    exact hat
  have hdots : sameName (baseName spath) dot = true ∨ sameName (baseName spath) dotdot = true := by
    by_contra hno
    exact hp ⟨hbase, hno⟩
  rw [Img.at, if_neg (take_ne_nil hbase), find_take] at hat ⊢
  have hvu : v = u := by
    refine hun.same fun c' m i hn => ?_
    obtain ⟨nm, hwalk', -, -, hno⟩ := hn
    rw [walk_baseName hwalk', sameName_take, sameName_take] at hno
    exact hno hdots
  have hc' : t.IsDir c := by
    rw [isDir_iff, hpar.type, hvu, hentered.type]
    exact isDir_iff.mp hc
  -- `.` and `..` are as they were, but for `..` of what is moved
  have hsame : ∀ {m a nm}, m < 2 → (t.node c).ents[m]? = some ⟨a, nm⟩ → a ≠ 0 → (m = 1 → c ≠ sip) →
      (s.node c).ents[m]? = some ⟨a, nm⟩ := by
    intro m a nm hm hk hlive hne
    rcases entry_of_moved hun hsu.tidy huv.tidy hpar hk hlive with ⟨hk, -⟩ | ⟨hcs, hone, -⟩
    · refine (hentered.entry hk).resolve_right ?_
      rintro ⟨-, hplace⟩
      have hge := (hs.tidy.dirOk hd).freeIdx_ge (place_eq_some hplace).1
      omega
    · exact absurd hcs (hne hone)
  rcases hdots with hdot | hdotdot
  · obtain ⟨a, ha, hk, hfound⟩ := find_dot hvt.tidy hc' hdot
    obtain ⟨a', -, hk', hfound'⟩ := find_dot hs.tidy hc hdot
    cases (hsame (by decide) hk ha fun hbad => absurd hbad (by decide)).symm.trans hk'
    rw [hfound, ← hat, hfound']
  · obtain ⟨a, ha, hk, hfound⟩ := find_dotdot hvt.tidy hc' hdotdot
    obtain ⟨a', -, hk', hfound'⟩ := find_dotdot hs.tidy hc hdotdot
    have hne : c ≠ sip := by
      -- only the root is its own parent
      rintro rfl
      cases hfound'.symm.trans hat
      obtain ⟨j, hholds⟩ := hs.grown.branches.holds ⟨hroot, isDir_iff.mp hc, hk'⟩
      exact hs.grown.branches.ne_parent (isDir_iff.mp hc) hroot hholds rfl
    cases (hsame (by decide) hk ha fun _ => hne).symm.trans hk'
    rw [hfound, ← hat, hfound']

/-! ## Both paths name one entry -/

theorem Moved.type_free (hmoved : Moved w t d name sip spath) (hfree : (w.node c).type = .free) :
    (t.node c).type = .free := by
  obtain ⟨v, hshift, -, hpar⟩ := hmoved
  rw [hpar.type]
  exact (hshift.type c).elim (fun hsame => hsame.trans hfree) id

theorem Cleared.taken_back (h : Cleared s w d k sip)
    (hfind : s.find d name = some (some sip, direntSize * k)) (hfile : ¬ s.IsDir sip)
    (hused : (w.node sip).type ≠ .free) (hname : name ≠ []) (h0 : 0 ∉ name)
    (hsource : s.Called d sname sip) (hsame : sameName sname name = true)
    (hwalk : s.spot spath = some (d, sname))
    (hmoved : Moved w t d name sip spath) : inodeOf (t.find d name) = none := by
  have hnone := h.new hname hfind
  refine hmoved.not_found h.after h.isDir hname hnone fun u m hwu hentered hplace _ => ?_
  have hnode : u.node = added w.node d m name sip := by
    rw [Entered, hplace] at hentered
    exact hentered
  have henters : Enters w u d m name sip :=
    ⟨h.after, h.isDir, hname, h0, hnone, hused, hplace, hwu, hnode⟩
  have hnot : (s.node sip).type ≠ .dir := fun hdir => hfile (isDir_iff.mpr hdir)
  -- no directory has changed, so the old path comes to the new entry
  have hwalk' := (h.holds.carries h.kept.sb h.node).walk h.whole.grown.rows h.rows
    h.whole.tidy.isDir_root (not_mem_trail h.whole.tidy.isDir_root hnot) hwalk
  have hroot := h.kept.tidy.isDir_root
  have hwalk'' := (henters.vacant.carries hwu.sb hnode).walk h.after.grown.rows henters.rows hroot
    (not_mem_trail hroot h.after.grown.rows.zero) hwalk'
  refine ⟨sip, sname, hwalk'', hsource.nonempty, ?_, hsource.proper⟩
  rw [find_iff henters.rows (henters.isDir.mpr h.isDir) hsource.nonempty]
  refine ⟨hwu.sb ▸ henters.inum, name.take dirsiz, ?_, ?_⟩
  · rw [henters.edit.ents d (henters.isDir.mpr h.isDir), ents_setEnt, if_pos rfl,
      getElem?_setAt henters.edit.le, if_pos rfl]
  · rw [sameName_comm, sameName_take, sameName_comm, hsame]

end Yaos.Fs
