import Yaos.Fs.Transplant

/-!
# The steps of a move

`do_mv` takes away what has the name, enters the file, looks up the old path to
clear its entry, and writes `..`. Each step is an edit of one entry. Together
they make a `Transplant`, if there is a place for the entry and the old path
still leads to its entry when the new one is there.
-/

namespace Yaos.Fs

open Yaos.Lib Relation

variable {s t u v w : Img} {c d i ip j k m sd sj sip : Nat} {name nm sname spath : Name} {e : Dirent}

/-! ## The name is taken away -/

theorem Cleared.edit (h : Cleared s w d k ip) : Edit s w d k ⟨0, []⟩ where
  sb := h.kept.sb
  before := h.whole.grown.rows
  after := h.rows
  dir c hc := by
    rw [isDir_iff, h.node] at hc
    rw [isDir_iff, ← (of_unlinked (FileType.ne_free_of_dir hc)).1]
    exact hc
  le := Nat.le_of_lt h.holds.lt
  ents c hc := by
    rw [isDir_iff, h.node] at hc
    rw [h.node]
    exact (of_unlinked (FileType.ne_free_of_dir hc)).2

theorem Cleared.not_dir (h : Cleared s w d k ip) : ¬ w.IsDir ip := by
  intro hdir
  have hip := isDir_iff.mp (h.edit.dir ip hdir)
  -- its parent holds it in one entry, and that was cleared
  obtain ⟨p, m, -, hiff⟩ := h.after.grown.branches.parent ip (isDir_iff.mp hdir) h.ne_root
  obtain ⟨hp, hge, hne, nm, hm⟩ := (hiff p m).mpr ⟨rfl, rfl⟩
  have hpdir := isDir_iff.mpr hp
  rw [h.edit.ents p hpdir] at hm
  have hholds : Holds (setEnt s.node d k ⟨0, []⟩) p m ip := by
    refine ⟨?_, hge, hne, nm, hm⟩
    rw [type_setEnt]
    exact isDir_iff.mp (h.edit.dir p hpdir)
  rw [holds_setEnt h.edit.le] at hholds
  split at hholds
  next => exact hne hholds.2.2.2.symm
  next hother => exact hother ((h.whole.grown.branches.up hip h.ne_root h.holds).2 p m hholds)

theorem Cleared.dirs (h : Cleared s w d k ip) : w.IsDir c ↔ s.IsDir c ∧ c ≠ ip := by
  constructor
  · intro hc
    refine ⟨h.edit.dir c hc, ?_⟩
    rintro rfl
    exact h.not_dir hc
  · rintro ⟨hc, hne⟩
    rw [isDir_iff] at hc ⊢
    rw [h.node, type_unlinked hne, hc]

/-- A name that is not there is not `.` or `..`, which every directory has. -/
theorem Whole.not_dots (h : Whole s) (hd : s.IsDir d) (hname : name ≠ [])
    (hnone : inodeOf (s.find d name) = none) :
    ¬ (sameName name dot = true ∨ sameName name dotdot = true) := by
  have hnot := (find_none h.grown.rows hd hname h.tidy).mp hnone
  have hdir := isDir_iff.mp hd
  rintro (hsame | hsame)
  · have hself := (h.grown.rows.listed d hdir).self
    rw [sameName_comm, hnot _ (List.mem_of_getElem? hself) (Nat.ne_of_gt hd.1.1)] at hsame
    cases hsame
  · obtain ⟨p, hp⟩ := h.grown.branches.dotdot hdir
    have hlive := (isDir_iff.mpr (h.grown.branches.type_dotdot hdir hp)).1.1
    rw [sameName_comm, hnot _ (List.mem_of_getElem? hp) (Nat.ne_of_gt hlive)] at hsame
    cases hsame

/-- The directory `d` of the image `w` is ready for the name: it was not there, or
what had it has been taken away. -/
inductive Prepared (s w : Img) (sip d : Nat) (name : Name) : Prop where
  | new : inodeOf (s.find d name) = none → w = s → Prepared s w sip d name
  | overwrite (k ip : Nat) : s.find d name = some (some ip, direntSize * k) → s.Yields ip sip →
      Cleared s w d k ip →
      (∀ c, s.sb.Inum c → ¬ s.IsDir c → (w.node c).type ≠ .free → w.bytes c = s.bytes c) →
      Prepared s w sip d name

namespace Prepared

variable (h : Prepared s w sip d name) (hs : Whole s)

include h

theorem isDir : w.IsDir c ↔ s.IsDir c ∧ inodeOf (s.find d name) ≠ some c := by
  cases h with
  | new hnone hw =>
    rw [hw, hnone]
    simp
  | overwrite k ip hfind _ hclear =>
    have hfound : inodeOf (s.find d name) = some ip := by
      rw [hfind]
      rfl
    rw [hclear.dirs, hfound, ne_eq (some ip), Option.some.injEq, ← ne_eq, ne_comm]

theorem find_rest (hc : w.IsDir c) (hd : s.IsDir d) (hname : name ≠ []) (hnm : nm ≠ [])
    (hother : ¬ SameSpot (c, nm) (d, name)) : inodeOf (w.find c nm) = inodeOf (s.find c nm) := by
  cases h with
  | new _ hw => rw [hw]
  | overwrite k ip hfind _ hclear =>
    refine hclear.edit.find_other hc hnm ?_ fun _ h0 => absurd rfl h0
    rintro rfl e₀ he₀ -
    obtain ⟨-, nm', hk, hsame⟩ := (find_iff hclear.whole.grown.rows hd hname).mp hfind
    cases he₀.symm.trans hk
    by_contra hno
    exact hother ⟨rfl, sameName_trans (by simpa using hno) (sameName_comm.trans hsame)⟩

theorem type (hc : (w.node c).type ≠ .free) : (w.node c).type = (s.node c).type := by
  cases h with
  | new _ hw => rw [hw]
  | overwrite k ip _ _ hclear =>
    rw [hclear.node] at hc ⊢
    exact (of_unlinked hc).1

theorem none (hname : name ≠ []) : inodeOf (w.find d name) = none := by
  cases h with
  | new hnone hw => rw [hw, hnone]
  | overwrite k ip hfind _ hclear => exact hclear.new hname hfind

theorem dir (hd : s.IsDir d) : w.IsDir d := by
  cases h with
  | new _ hw => exact hw ▸ hd
  | overwrite k ip _ _ hclear => exact hclear.isDir

include hs

theorem whole : Whole w := by
  cases h with
  | new _ hw => exact hw ▸ hs
  | overwrite k ip _ _ hclear => exact hclear.after

theorem kept : Kept s w := by
  cases h with
  | new _ hw => exact hw ▸ hs.tidy.kept
  | overwrite k ip _ _ hclear => exact hclear.kept

theorem exchange (hd : s.IsDir d) (hname : name ≠ []) (hsource : s.Called sd sname sip)
    (hother : ¬ SameSpot (d, name) (sd, sname)) : Exchange s sd sname d name sip where
  whole := hs
  source := hsource
  dir := hd
  nonempty := hname
  proper := (h.whole hs).not_dots (h.dir hd) hname (h.none hname)
  other := hother
  old ip hfound hdir := by
    cases h with
    | new hnone =>
      rw [hnone] at hfound
      cases hfound
    | overwrite k ip' hfind hyields =>
      rw [hfind] at hfound
      cases hfound
      rcases hyields with ⟨-, hsip, hempty⟩ | ⟨hfile, -⟩
      · refine ⟨hsip, ?_⟩
        rintro k y ⟨-, hge, hy, nm, hk⟩
        exact hy ((hs.tidy.dirOk hdir).dead_of_empty hempty hge hk)
      · rw [hdir.2] at hfile
        cases hfile

/-- There is a place for the name, if there is room where it is new. -/
theorem place (hd : s.IsDir d) (hname : name ≠ [])
    (hroom : inodeOf (s.find d name) = Option.none → s.HasRoom d) : ∃ j, w.place d name = some j := by
  have hw := h.whole hs
  have hnone := h.none hname
  cases h with
  | new hnew heq =>
    subst heq
    exact HasRoom.place hw.tidy hw.grown.rows hd hname hnone (hroom hnew)
  | overwrite k ip _ _ hclear =>
    exact HasRoom.place hw.tidy hw.grown.rows hclear.isDir hname hnone hclear.room

end Prepared

/-! ## The file is entered -/

/-- `sip` is entered at `j` of the directory `d`, which does not have the name. -/
structure Enters (w u : Img) (d j : Nat) (name : Name) (sip : Nat) : Prop where
  whole : Whole w
  dir : w.IsDir d
  nonempty : name ≠ []
  zero : 0 ∉ name
  new : inodeOf (w.find d name) = none
  used : (w.node sip).type ≠ .free
  place : w.place d name = some j
  kept : Kept w u
  node : u.node = added w.node d j name sip

namespace Enters

variable (h : Enters w u d j name sip)

include h

theorem vacant : Vacant w.node d j (name.take dirsiz) :=
  place_vacant h.whole.tidy h.whole.grown.rows h.dir h.nonempty h.new h.place

theorem inum : w.sb.Inum sip := h.whole.grown.rows.inside sip h.used

theorem stores : Stores sip name (name.take dirsiz) :=
  stores_of_new h.whole.tidy h.whole.grown.rows h.dir h.nonempty h.new h.inum h.zero

theorem rows : Rows w.sb.ninodes u.node := by
  rw [h.node, h.stores.added_eq]
  exact (h.whole.grown.rows.enter h.vacant h.used).congr (fun _ => type_addLink) fun _ => ents_addLink

theorem isDir : u.IsDir c ↔ w.IsDir c := by
  rw [isDir_iff, isDir_iff, h.node, type_added]

theorem edit : Edit w u d j ⟨sip, name.take dirsiz⟩ where
  sb := h.kept.sb
  before := h.whole.grown.rows
  after := h.rows
  dir _ := h.isDir.mp
  le := h.vacant.le
  ents c _ := by rw [h.node, h.stores.added_eq, ents_addLink]

theorem find_new : inodeOf (u.find d name) = some sip := by
  refine h.edit.find_new (h.isDir.mpr h.dir) h.nonempty h.inum ?_
  rw [sameName_comm, sameName_take, sameName, decide_eq_true_eq]

theorem find_rest (hc : w.IsDir c) (hnm : nm ≠ []) (hother : ¬ SameSpot (c, nm) (d, name)) :
    inodeOf (u.find c nm) = inodeOf (w.find c nm) := by
  refine h.edit.find_other (h.isDir.mpr hc) hnm ?_ ?_
  · rintro - e₀ he₀ hlive
    exact absurd (h.vacant.dead e₀ he₀) hlive
  · rintro rfl -
    by_contra hno
    refine hother ⟨rfl, ?_⟩
    rw [sameName_comm, sameName_take] at hno
    rw [sameName_comm]
    simpa using hno

theorem entry (hk : (w.node c).ents[k]? = some e) (hlive : e.inum ≠ 0) (hc : w.IsDir c) :
    (u.node c).ents[k]? = some e :=
  (h.vacant.carries h.kept.sb h.node).ent c k e hc (Nat.ne_of_gt hc.1.1) hk hlive hlive

end Enters

/-- What a name leads to when the new entry is there and `..` is as it was. -/
def Img.via (s : Img) (d : Nat) (name : Name) (sip c : Nat) (nm : Name) : Option Nat :=
  if SameSpot (c, nm) (d, name) then if (s.inode sip).type = .dir then some sip else none
  else s.descend c nm

/-- The image `u` has both names. -/
structure Graft (s w u : Img) (sd : Nat) (sname : Name) (d j : Nat) (name : Name) (sip : Nat) :
    Prop extends Exchange s sd sname d name sip where
  prepared : Prepared s w sip d name
  enters : Enters w u d j name sip

/-- The entry of what is moved is there still when the other one has gone. -/
theorem Exchange.entry (h : Exchange s sd sname d name sip) (hp : Prepared s w sip d name) :
    ∃ sj nm, Holds w.node sd sj sip ∧ (w.node sd).ents[sj]? = some ⟨sip, nm⟩ ∧
      sameName sname nm = true := by
  obtain ⟨sj, nm, hholds, hsj, hsame⟩ := h.source.entry h.whole
  have hsd : w.IsDir sd := hp.isDir.mpr ⟨h.source.dir, h.ne_sd⟩
  have hentry : (w.node sd).ents[sj]? = some ⟨sip, nm⟩ := by
    cases hp with
    | new _ hw => rw [hw, hsj]
    | overwrite k ip hfind _ hclear =>
      rw [hclear.edit.ents sd hsd, ents_setEnt]
      split
      next heq =>
        subst heq
        rw [getElem?_setAt hclear.edit.le, if_neg, hsj]
        rintro rfl
        obtain ⟨-, nm', hk, hsame'⟩ := (find_iff h.whole.grown.rows h.dir h.nonempty).mp hfind
        cases hsj.symm.trans hk
        exact h.other ⟨rfl, sameName_trans hsame' (sameName_comm.trans hsame)⟩
      next => exact hsj
  exact ⟨sj, nm, ⟨isDir_iff.mp hsd, hholds.2.1, hholds.2.2.1, nm, hentry⟩, hentry, hsame⟩

theorem Exchange.graft (h : Exchange s sd sname d name sip) (hp : Prepared s w sip d name)
    (h0 : 0 ∉ name) (hplace : w.place d name = some j) (hk : Kept w u)
    (hnode : u.node = added w.node d j name sip) : Graft s w u sd sname d j name sip where
  toExchange := h
  prepared := hp
  enters := by
    obtain ⟨sj, nm, hholds, -⟩ := h.entry hp
    have hw := hp.whole h.whole
    exact ⟨hw, hp.dir h.dir, h.nonempty, h0, hp.none h.nonempty, hw.grown.rows.held hholds, hplace,
      hk, hnode⟩

namespace Graft

variable (h : Graft s w u sd sname d j name sip)

include h

theorem isDir : u.IsDir c ↔ s.IsDir c ∧ inodeOf (s.find d name) ≠ some c :=
  h.enters.isDir.trans h.prepared.isDir

theorem isDir_sip : u.IsDir sip ↔ s.IsDir sip :=
  h.isDir.trans (and_iff_left_of_imp fun hdir => h.ne_sip hdir)

theorem find_rest (hc : u.IsDir c) (hnm : nm ≠ []) (hnew : ¬ SameSpot (c, nm) (d, name)) :
    inodeOf (u.find c nm) = inodeOf (s.find c nm) := by
  have hc' := h.enters.isDir.mp hc
  rw [h.enters.find_rest hc' hnm hnew, h.prepared.find_rest hc' h.dir h.nonempty hnm hnew]

theorem descend (hc : u.IsDir c) (hnm : nm ≠ []) : u.descend c nm = s.via d name sip c nm := by
  rw [Img.via]
  split
  next hnew =>
    obtain ⟨rfl, hsame⟩ := hnew
    have hfound : inodeOf (u.find c nm) = some sip := by
      rw [find_sameName hsame]
      exact h.enters.find_new
    have hdir : (u.inode sip).type = .dir ↔ (s.inode sip).type = .dir := by
      have hinum := h.enters.inum
      have hiff := h.isDir_sip
      rw [Img.IsDir, Img.IsDir, h.enters.kept.sb, (h.prepared.kept h.whole).sb] at hiff
      rw [(h.prepared.kept h.whole).sb] at hinum
      rwa [and_iff_right hinum, and_iff_right hinum] at hiff
    rw [Img.descend, hfound, Option.filter_some]
    simp only [hdir, decide_eq_true_eq]
  next hnew =>
    obtain ⟨hsc, hne⟩ := h.isDir.mp hc
    ext y
    rw [descend_eq_some, descend_eq_some, h.find_rest hc hnm hnew, h.isDir]
    constructor
    · rintro ⟨hfound, hy, -⟩
      exact ⟨hfound, hy⟩
    · rintro ⟨hfound, hy⟩
      exact ⟨hfound, hy, h.step_ne hsc hnm hne hnew (descend_eq_some.mpr ⟨hfound, hy⟩)⟩

theorem route_via {l : List Name} (hl : ∀ nm ∈ l, nm ≠ []) :
    route u.descend root l = route (s.via d name sip) root l := by
  have hdirs : ∀ z ∈ lookups (s.via d name sip) root l, u.IsDir z.1 := by
    refine (route_inv u.IsDir h.enters.kept.tidy.isDir_root fun z hz hdir y hstep => ?_).1
    rw [← h.descend hdir (hl _ (mem_of_mem_lookups hz))] at hstep
    exact (descend_eq_some.mp hstep).2
  exact route_congr fun z hz => h.descend (hdirs z hz) (hl _ (mem_of_mem_lookups hz))

theorem via_file (hsip : ¬ s.IsDir sip) : s.via d name sip = s.descend := by
  funext c nm
  rw [Img.via]
  split
  next hnew =>
    obtain ⟨rfl, hsame⟩ := hnew
    rw [if_neg fun hdir => hsip ⟨(h.prepared.kept h.whole).sb ▸ h.enters.inum, hdir⟩, eq_comm,
      Option.eq_none_iff_forall_ne_some]
    intro y hstep
    obtain ⟨hfound, hy⟩ := descend_eq_some.mp hstep
    rw [find_sameName hsame] at hfound
    exact hsip (h.old y hfound hy).1
  next => rfl

theorem bytes (hspared : Spared w u d) (hun : Unlinks u v root spath) (hpar : Reparented v t d sip)
    (hsip : ¬ s.IsDir sip) (hused : (v.node sip).type ≠ .free) : t.bytes sip = s.bytes sip := by
  have hnot : ¬ u.IsDir sip := fun hdir => hsip (h.isDir_sip.mp hdir)
  have hnot' : ¬ v.IsDir sip := by
    rw [isDir_iff]
    exact hun.not_dir fun hdir => hnot (isDir_iff.mpr hdir)
  have hne : sip ≠ d := by
    rintro rfl
    exact hsip h.dir
  have hinum := h.enters.inum
  have hfirst : w.bytes sip = s.bytes sip := by
    cases h.prepared with
    | new _ hw => rw [hw]
    | overwrite k ip _ _ hclear hbytes => exact hbytes sip (hclear.kept.sb ▸ hinum) hsip h.enters.used
  rw [hpar.file hnot', hun.bytes sip (h.enters.kept.inum hinum) hnot hused, hspared sip hne hinum, hfirst]

theorem entry : ∃ sj nm, Holds w.node sd sj sip ∧ (u.node sd).ents[sj]? = some ⟨sip, nm⟩ ∧
    sameName sname nm = true := by
  obtain ⟨sj, nm, hholds, hsj, hsame⟩ := h.toExchange.entry h.prepared
  exact ⟨sj, nm, hholds, h.enters.entry hsj hholds.2.2.1 (isDir_iff.mpr hholds.1), hsame⟩

end Graft

/-! ## The old entry is cleared -/

theorem Graft.names (h : Graft s w u sd sname d j name sip)
    (hwalk : u.spot spath = some (sd, sname)) :
    ∃ sj nm, u.Names root spath sd sj sip ∧ Holds w.node sd sj sip ∧
      (u.node sd).ents[sj]? = some ⟨sip, nm⟩ ∧ sameName sname nm = true := by
  obtain ⟨sj, nm, hholds, hsj, hsame⟩ := h.entry
  refine ⟨sj, nm, ⟨sname, hwalk, h.source.nonempty, ?_, h.source.proper⟩, hholds, hsj, hsame⟩
  have hsd : u.IsDir sd := h.isDir.mpr ⟨h.source.dir, h.ne_sd⟩
  rw [find_iff h.enters.rows hsd h.source.nonempty]
  exact ⟨h.enters.kept.sb ▸ h.enters.inum, nm, hsj, hsame⟩

theorem Graft.unhooked (h : Graft s w u sd sname d j name sip) (hholds : Holds w.node sd sj sip)
    (hnode : v.node = unlinked u.sb u.node sd sj sip) (hv : Kept u v) :
    (∀ c, (v.node c).type = (u.node c).type) ∧ Edit u v sd sj ⟨0, []⟩ := by
  have hw := h.enters.whole
  have hsd : sd ≠ sip := by
    rintro rfl
    exact hw.grown.branches.ne_parent hholds.1 h.ne_root hholds rfl
  rw [h.enters.node] at hnode
  have htype : ∀ c, (v.node c).type = (w.node c).type := fun c => by
    rw [hnode, h.enters.stores.type_moved hsd (hw.grown.nlink_ne_zero hholds)
      (hw.grown.counts.fits sip h.enters.used)]
  have hents : ∀ c, (v.node c).ents = (setEnt u.node sd sj ⟨0, []⟩ c).ents := by
    intro c
    rw [hnode, h.enters.node]
    by_cases hc : c = sip
    · subst hc
      refine (of_unlinked ?_).2
      rw [← hnode, htype]
      exact h.enters.used
    · exact ents_unlinked hc
  have hrows : Rows w.sb.ninodes v.node := by
    refine (hw.grown.rows.relinked h.enters.vacant hholds).congr (fun c => ?_) fun c => ?_
    · rw [htype, type_relinked]
    · rw [hents, h.enters.node, h.enters.stores.added_eq]
      exact ents_relinked
  have hsame : ∀ c, (v.node c).type = (u.node c).type := fun c => by
    rw [htype, h.enters.node, type_added]
  refine ⟨hsame, hv.sb, ?_, ?_, ?_, ?_, fun c _ => hents c⟩
  · rw [h.enters.kept.sb]
    exact h.enters.rows
  · rw [h.enters.kept.sb]
    exact hrows
  · intro c hc
    rwa [isDir_iff, hsame, ← isDir_iff] at hc
  · rw [h.enters.node, ents_added]
    split
    next heq =>
      rw [length_setAt h.enters.vacant.le, ← heq]
      exact Nat.le_trans (Nat.le_of_lt hholds.lt) (Nat.le_max_left _ _)
    next => exact Nat.le_of_lt hholds.lt

/-! ## `..` is written -/

theorem Reparented.edit (h : Reparented v t d sip) (hv : Tidy v) (hk : Kept v t)
    (hr : Rows v.sb.ninodes v.node) (hd : v.IsDir d) (hsip : v.IsDir sip) :
    Edit v t sip 1 ⟨d, dotdot⟩ ∧ ∃ p, (v.node sip).ents[1]? = some ⟨p, dotdot⟩ := by
  have hnode := h.dir hd hsip
  obtain ⟨p, hp, hdots⟩ := (hv.dirOk hsip).dotdot
  refine ⟨⟨hk.sb, hr, ?_, ?_, Nat.le_of_lt (List.getElem?_eq_some_iff.mp hdots).1, ?_⟩, p, hdots⟩
  · rw [hnode]
    exact (hr.setDotdot (isDir_iff.mp hsip) hdots (Nat.ne_of_gt hp.1) (isDir_iff.mp hd)).congr
      (fun _ => type_addLink) fun _ => ents_addLink
  · intro c hc
    rwa [isDir_iff, h.type, ← isDir_iff] at hc
  · intro c _
    rw [hnode, ents_addLink]

theorem Reparented.finds (h : Reparented v t d sip) (hv : Tidy v) (hk : Kept v t)
    (hr : Rows v.sb.ninodes v.node) (hd : v.IsDir d) :
    (∀ c, t.IsDir c ↔ v.IsDir c) ∧ (v.IsDir sip → inodeOf (t.find sip dotdot) = some d) ∧
      ∀ c nm, t.IsDir c → nm ≠ [] → ¬ (c = sip ∧ sameName nm dotdot = true) →
        inodeOf (t.find c nm) = inodeOf (v.find c nm) := by
  have hdir : ∀ c, t.IsDir c ↔ v.IsDir c := fun c => by rw [isDir_iff, isDir_iff, h.type]
  by_cases hsip : v.IsDir sip
  · obtain ⟨hedit, p, hdots⟩ := h.edit hv hk hr hd hsip
    have hself : sameName dotdot dotdot = true := by decide
    refine ⟨hdir, fun _ => hedit.find_new ((hdir sip).mpr hsip) (by decide) hd.1 hself, ?_⟩
    intro c nm hc hnm hother
    refine hedit.find_other hc hnm ?_ ?_
    · rintro rfl e₀ he₀ -
      cases he₀.symm.trans hdots
      by_contra hno
      exact hother ⟨rfl, by simpa using hno⟩
    · rintro rfl -
      by_contra hno
      exact hother ⟨rfl, by simpa using hno⟩
  · refine ⟨hdir, fun hbad => absurd hbad hsip, fun _ _ _ _ _ => ?_⟩
    rw [h.file hsip]

/-! ## All steps -/

/-- **A move is a transplant** if the old path leads to the old entry when the
new one is there. -/
theorem Graft.transplant (h : Graft s w u sd sname d j name sip)
    (hwalk : u.spot spath = some (sd, sname)) (huv : Kept u v)
    (hun : Unlinks u v root spath) (hvt : Kept v t) (hpar : Reparented v t d sip) :
    Transplant s t sd sname d name sip ∧ (t.node sip).type = (s.node sip).type := by
  obtain ⟨sj, nm, hnames, hholds, hsj, hsame⟩ := h.names hwalk
  obtain ⟨htype, hedit⟩ := h.unhooked hholds (hun.node sd sj sip hnames) huv
  have hdir : ∀ c, v.IsDir c ↔ u.IsDir c := fun c => by rw [isDir_iff, isDir_iff, htype]
  have hrows : Rows v.sb.ninodes v.node := huv.sb ▸ hedit.after
  have hd : v.IsDir d := (hdir d).mpr (h.enters.isDir.mpr h.enters.dir)
  have hsd : u.IsDir sd := h.isDir.mpr ⟨h.source.dir, h.ne_sd⟩
  obtain ⟨hdir', hup, hrest⟩ := hpar.finds huv.tidy hvt hrows hd
  -- what the old entry was does not matter for other names
  have hother : ∀ c nm', v.IsDir c → nm' ≠ [] → ¬ SameSpot (c, nm') (sd, sname) →
      inodeOf (v.find c nm') = inodeOf (u.find c nm') := by
    intro c nm' hc hnm' hold
    refine hedit.find_other hc hnm' ?_ fun _ h0 => absurd rfl h0
    rintro rfl e₀ he₀ -
    cases he₀.symm.trans hsj
    by_contra hno
    exact hold ⟨rfl, sameName_trans (by simpa using hno) (sameName_comm.trans hsame)⟩
  refine ⟨⟨h.toExchange, fun c => ?_, ?_, ?_, fun hsip => ?_, fun c nm' hc hnm' hnew hold hdots => ?_⟩, ?_⟩
  · rw [hdir', hdir, h.isDir]
  · rw [hrest d name ((hdir' d).mpr hd) h.nonempty fun hbad => h.proper (.inr hbad.2),
      hother d name hd h.nonempty h.other, h.enters.find_new]
  · rw [hrest sd sname ((hdir' sd).mpr ((hdir sd).mpr hsd)) h.source.nonempty
      fun hbad => h.source.proper (.inr hbad.2)]
    refine hedit.find_gone ((hdir sd).mpr hsd) h.source.nonempty ?_ (List.getElem?_eq_some_iff.mp hsj).1
    intro e₀ he₀
    cases he₀.symm.trans hsj
    exact ⟨hholds.2.2.1, hsame⟩
  · exact hup ((hdir sip).mpr (h.isDir_sip.mpr hsip))
  · have hcv := (hdir' c).mp hc
    rw [hrest c nm' hc hnm' hdots, hother c nm' hcv hnm' hold, h.find_rest ((hdir c).mp hcv) hnm' hnew]
  · rw [hpar.type, htype, h.enters.node, type_added, h.prepared.type h.enters.used]

end Yaos.Fs
