import Yaos.Fs.Routes

/-!
# What a move does to paths

`Transplant` says what every lookup finds after a move: the new name is there,
the old one is not, `..` of a directory that was moved names its new parent, and
the rest is as before. A path that asks for neither name resolves as before. A
path that does not ask for the old one goes in step with the way it went, with
the directory that was moved in the place of an empty one that it has replaced
(`Mirrors`); and a path that does ask for the old name comes no further.
-/

namespace Yaos.Fs

open Yaos.Lib Relation

variable {s t : Img} {c d i sd sip x y z : Nat} {name nm sname path : Name}

/-- `sip` can go from the name `sname` in `sd` to the name `name` in `d`. -/
structure Exchange (s : Img) (sd : Nat) (sname : Name) (d : Nat) (name : Name) (sip : Nat) : Prop where
  whole : Whole s
  source : s.Called sd sname sip
  dir : s.IsDir d
  nonempty : name ≠ []
  proper : ¬ (sameName name dot = true ∨ sameName name dotdot = true)
  other : ¬ SameSpot (d, name) (sd, sname)
  /-- a directory that is replaced is empty, and replaced by a directory -/
  old : ∀ ip, inodeOf (s.find d name) = some ip → s.IsDir ip →
    s.IsDir sip ∧ ∀ k y, ¬ Holds s.node ip k y

structure Transplant (s t : Img) (sd : Nat) (sname : Name) (d : Nat) (name : Name) (sip : Nat) :
    Prop extends Exchange s sd sname d name sip where
  isDir : ∀ c, t.IsDir c ↔ s.IsDir c ∧ inodeOf (s.find d name) ≠ some c
  new : inodeOf (t.find d name) = some sip
  gone : inodeOf (t.find sd sname) = none
  up : s.IsDir sip → inodeOf (t.find sip dotdot) = some d
  rest : ∀ c nm, t.IsDir c → nm ≠ [] → ¬ SameSpot (c, nm) (d, name) → ¬ SameSpot (c, nm) (sd, sname) →
    ¬ (c = sip ∧ sameName nm dotdot = true) → inodeOf (t.find c nm) = inodeOf (s.find c nm)

/-- A directory that a path can be in if it has asked for neither name. -/
def Img.Clear (s : Img) (d : Nat) (name : Name) (sip c : Nat) : Prop :=
  s.IsDir c ∧ ¬ ReflTransGen (Up s.node) c sip ∧ inodeOf (s.find d name) ≠ some c

/-- Where a path is in both images if it has not asked for the old name. -/
def Img.Mirrors (s : Img) (d : Nat) (name : Name) (sip x y : Nat) : Prop :=
  s.IsDir x ∧ ¬ ReflTransGen (Up s.node) x sip ∧
    (inodeOf (s.find d name) ≠ some x ∧ y = x ∨ inodeOf (s.find d name) = some x ∧ y = sip)

namespace Exchange

variable (h : Exchange s sd sname d name sip)

include h

theorem ne_root : sip ≠ root := by
  rintro rfl
  obtain ⟨k, nm, hholds, -⟩ := h.source.entry h.whole
  exact h.whole.grown.branches.first _ _ hholds

theorem child {ip : Nat} (hip : inodeOf (s.find d name) = some ip) : s.Called d name ip :=
  ⟨h.dir, h.nonempty, h.proper, hip⟩

theorem ne_sip (hdir : s.IsDir sip) : inodeOf (s.find d name) ≠ some sip := by
  intro hfound
  obtain ⟨k, nm, hholds, hk, hsame⟩ := (h.child hfound).entry h.whole
  obtain ⟨k', nm', hholds', hk', hsame'⟩ := h.source.entry h.whole
  obtain ⟨rfl, rfl⟩ := (h.whole.grown.branches.up (isDir_iff.mp hdir) h.ne_root hholds').2 d k hholds
  cases hk.symm.trans hk'
  exact h.other ⟨rfl, sameName_trans hsame (sameName_comm.trans hsame')⟩

theorem ne_dest : inodeOf (s.find d name) ≠ some d := by
  intro hfound
  obtain ⟨k, nm, hholds, -⟩ := (h.child hfound).entry h.whole
  have hroot : d ≠ root := by
    rintro rfl
    exact h.whole.grown.branches.first _ _ hholds
  exact h.whole.grown.branches.ne_parent hholds.1 hroot hholds rfl

theorem ne_sd : inodeOf (s.find d name) ≠ some sd := by
  intro hfound
  obtain ⟨k, nm, hholds, -⟩ := h.source.entry h.whole
  exact (h.old sd hfound h.source.dir).2 k sip hholds

theorem ne_top : inodeOf (s.find d name) ≠ some root := by
  intro hfound
  obtain ⟨k, nm, hholds, -⟩ := (h.child hfound).entry h.whole
  exact h.whole.grown.branches.first _ _ hholds

theorem step_ne {w : Nat} (hx : s.IsDir x) (hnm : nm ≠ []) (hne : inodeOf (s.find d name) ≠ some x)
    (hother : ¬ SameSpot (x, nm) (d, name)) (hstep : s.descend x nm = some w) :
    inodeOf (s.find d name) ≠ some w := by
  intro hfound
  have hxw : x ≠ w := by
    rintro rfl
    exact hne hfound
  have hempty := (h.old w hfound (descend_eq_some.mp hstep).2).2
  exact descend_not_below h.whole (h.child hfound) hx hnm (not_below_empty hempty h.whole hxw) hother
    hstep .refl

end Exchange

namespace Transplant

variable (h : Transplant s t sd sname d name sip)

include h

theorem isDir_sip (hdir : s.IsDir sip) : t.IsDir sip := (h.isDir sip).mpr ⟨hdir, h.ne_sip hdir⟩

/-! ## Paths that ask for neither name -/

theorem find_rest (hc : s.Clear d name sip c) (hnm : nm ≠ []) (hnew : ¬ SameSpot (c, nm) (d, name))
    (hold : ¬ SameSpot (c, nm) (sd, sname)) : inodeOf (t.find c nm) = inodeOf (s.find c nm) := by
  refine h.rest c nm ((h.isDir c).mpr ⟨hc.1, hc.2.2⟩) hnm hnew hold ?_
  rintro ⟨rfl, -⟩
  exact hc.2.1 .refl

theorem descend_rest (hc : s.Clear d name sip c) (hnm : nm ≠ [])
    (hnew : ¬ SameSpot (c, nm) (d, name)) (hold : ¬ SameSpot (c, nm) (sd, sname)) :
    t.descend c nm = s.descend c nm := by
  ext w
  rw [descend_eq_some, descend_eq_some, h.find_rest hc hnm hnew hold, h.isDir]
  constructor
  · rintro ⟨hfound, hdir, -⟩
    exact ⟨hfound, hdir⟩
  · rintro ⟨hfound, hdir⟩
    exact ⟨hfound, hdir, h.step_ne hc.1 hnm hc.2.2 hnew (descend_eq_some.mpr ⟨hfound, hdir⟩)⟩

theorem route_clear {l : List Name} (hl : ∀ nm ∈ l, nm ≠ []) (hother : ∀ z ∈ lookups s.descend root l,
      ¬ SameSpot z (d, name) ∧ ¬ SameSpot z (sd, sname)) :
    (∀ z ∈ lookups s.descend root l, s.Clear d name sip z.1) ∧
      ∀ w, route s.descend root l = some w → s.Clear d name sip w := by
  refine route_inv (s.Clear d name sip) ⟨h.whole.tidy.isDir_root, not_below_root h.ne_root, h.ne_top⟩ ?_
  rintro ⟨c, nm⟩ hz ⟨hc, hnot, hne⟩ w hstep
  have hnm := hl nm (mem_of_mem_lookups hz)
  obtain ⟨hnew, hold⟩ := hother _ hz
  exact ⟨(descend_eq_some.mp hstep).2, descend_not_below h.whole h.source hc hnm hnot hold hstep,
    h.step_ne hc hnm hne hnew hstep⟩

/-- **The rest of the tree**: such a path resolves as before. -/
theorem resolve_rest (hnew : s.Avoids path (d, name)) (hold : s.Avoids path (sd, sname)) :
    t.resolve path = s.resolve path := by
  have hother : ∀ z ∈ lookups s.descend root (elements path),
      ¬ SameSpot z (d, name) ∧ ¬ SameSpot z (sd, sname) := fun z hz =>
    ⟨hnew z (mem_asks.mpr (.inl hz)), hold z (mem_asks.mpr (.inl hz))⟩
  obtain ⟨hway, hend⟩ := h.route_clear elements_ne_nil hother
  have hroute : route t.descend root (elements path) = route s.descend root (elements path) :=
    route_congr fun z hz => h.descend_rest (hway z hz) (elements_ne_nil _ (mem_of_mem_lookups hz))
      (hother z hz).1 (hother z hz).2
  rw [resolve_eq_route, resolve_eq_route, hroute]
  cases hlast : route s.descend root (elements path) with
  | none => rfl
  | some c =>
    rw [Option.bind_some, Option.bind_some, Img.at, Img.at]
    split
    next => rfl
    next hne =>
      have hask : (c, lastName path) ∈ s.asks path := mem_asks.mpr (.inr ⟨hne, c, hlast, rfl⟩)
      exact h.find_rest (hend c hlast) hne (hnew _ hask) (hold _ hask)

/-! ## Paths that do not ask for the old name -/

/-- **One step in both images.** -/
theorem step {w : Nat} (hm : s.Mirrors d name sip x y) (hnm : nm ≠ [])
    (hold : ¬ SameSpot (x, nm) (sd, sname)) (hstep : s.descend x nm = some w) :
    ∃ w', t.descend y nm = some w' ∧ s.Mirrors d name sip w w' := by
  obtain ⟨hx, hnot, hxy⟩ := hm
  have hw := (descend_eq_some.mp hstep).2
  have hnot' := descend_not_below h.whole h.source hx hnm hnot hold hstep
  rcases hxy with ⟨hne, rfl⟩ | ⟨hip, rfl⟩
  · by_cases hnew : SameSpot (y, nm) (d, name)
    · -- the step goes to the directory that is replaced
      obtain ⟨rfl, hsame⟩ := hnew
      have hfound : inodeOf (s.find y name) = some w := by
        rw [← find_sameName hsame]
        exact (descend_eq_some.mp hstep).1
      have hsip := (h.old w hfound hw).1
      refine ⟨sip, descend_eq_some.mpr ⟨?_, h.isDir_sip hsip⟩, hw, hnot', .inr ⟨hfound, rfl⟩⟩
      rw [find_sameName hsame]
      exact h.new
    · have hclear : s.Clear d name sip y := ⟨hx, hnot, hne⟩
      exact ⟨w, (h.descend_rest hclear hnm hnew hold).trans hstep, hw, hnot',
        .inl ⟨h.step_ne hx hnm hne hnew hstep, rfl⟩⟩
  · -- what is replaced has `.` and `..` only, and so has what is in its place
    obtain ⟨hsip, hempty⟩ := h.old x hip hx
    obtain ⟨k, -, hholds, -⟩ := (h.child hip).entry h.whole
    have hroot : x ≠ root := by
      rintro rfl
      exact h.ne_top hip
    have hup := (h.whole.grown.branches.up (isDir_iff.mp hx) hroot hholds).1
    rcases descend_cases h.whole hx hnm hstep with ⟨hdot, rfl⟩ | ⟨hdots, ⟨hbad, -⟩ | hup'⟩ | ⟨k, -, hbad, -⟩
    · refine ⟨y, descend_eq_some.mpr ⟨?_, h.isDir_sip hsip⟩, hx, hnot, .inr ⟨hip, rfl⟩⟩
      rw [h.rest y nm (h.isDir_sip hsip) hnm, inodeOf_find h.whole.grown.rows hsip hnm]
      · exact ⟨hsip.1, 0, dot, (h.whole.grown.rows.listed y (isDir_iff.mp hsip)).self, hdot⟩
      · rintro ⟨-, hsame⟩
        exact h.proper (.inl (sameName_trans (sameName_comm.trans hsame) hdot))
      · rintro ⟨-, hsame⟩
        exact h.source.proper (.inl (sameName_trans (sameName_comm.trans hsame) hdot))
      · rintro ⟨-, hdots⟩
        have hboth := sameName_trans (sameName_comm.trans hdot) hdots
        revert hboth
        decide
    · exact absurd hbad hroot
    · cases hup.2.2.symm.trans hup'.2.2
      refine ⟨d, descend_eq_some.mpr ⟨?_, (h.isDir d).mpr ⟨h.dir, h.ne_dest⟩⟩, hw, hnot',
        .inl ⟨h.ne_dest, rfl⟩⟩
      rw [find_sameName hdots]
      exact h.up hsip
    · exact absurd hbad (hempty k w)

theorem mirrors_root : s.Mirrors d name sip root root :=
  ⟨h.whole.tidy.isDir_root, not_below_root h.ne_root, .inl ⟨h.ne_top, rfl⟩⟩

theorem route_mirrors {l : List Name} (hl : ∀ nm ∈ l, nm ≠ [])
    (hold : ∀ z ∈ lookups s.descend root l, ¬ SameSpot z (sd, sname))
    (hroute : route s.descend root l = some x) :
    ∃ y, route t.descend root l = some y ∧ s.Mirrors d name sip x y :=
  route_sim (s.Mirrors d name sip) (h.mirrors_root) (fun z hz _ hm _ hstep =>
    h.step hm (hl _ (mem_of_mem_lookups hz)) (hold z hz) hstep) hroute

theorem route_blocked {l : List Name} (hl : ∀ nm ∈ l, nm ≠ [])
    (hold : ∃ z ∈ lookups s.descend root l, SameSpot z (sd, sname)) :
    route t.descend root l = none := by
  refine Lib.route_blocked (s.Mirrors d name sip) (fun z => SameSpot z (sd, sname)) (h.mirrors_root)
    (fun z hz hother _ hm _ hstep => h.step hm (hl _ (mem_of_mem_lookups hz)) hother hstep) ?_ hold
  rintro ⟨x, nm⟩ - ⟨rfl, hsame⟩ y ⟨-, -, hxy⟩
  rcases hxy with ⟨-, rfl⟩ | ⟨hbad, -⟩
  · have hnone : inodeOf (t.find y nm) = none := by
      rw [find_sameName hsame]
      exact h.gone
    rw [Img.descend, hnone]
    rfl
  · exact absurd hbad (h.ne_sd)

theorem resolve_source (hpath : s.spot path = some (sd, sname)) :
    t.resolve path ≠ some sip := by
  rw [walk_eq_route] at hpath
  obtain ⟨x, hroute, heq⟩ := Option.map_eq_some_iff.mp hpath
  cases heq
  rw [resolve_eq_route]
  by_cases hold : ∃ z ∈ lookups s.descend root (elements path), SameSpot z (sd, lastName path)
  · rw [h.route_blocked elements_ne_nil hold]
    rintro ⟨⟩
  · obtain ⟨y, hy, -, -, hxy⟩ := h.route_mirrors elements_ne_nil
      (fun z hz hsame => hold ⟨z, hz, hsame⟩) hroute
    rcases hxy with ⟨-, rfl⟩ | ⟨hbad, -⟩
    · rw [hy, Option.bind_some, Img.at, if_neg h.source.nonempty, h.gone]
      rintro ⟨⟩
    · exact absurd hbad (h.ne_sd)

/-- A path to a directory leads there still, if it does not ask for the old name. -/
theorem resolve_dir_iff (hres : s.resolve path = some i) (hi : s.IsDir i)
    (hne : inodeOf (s.find d name) ≠ some i) :
    t.resolve path = some i ↔ s.Avoids path (sd, sname) := by
  have hi' : t.IsDir i := (h.isDir i).mpr ⟨hi, hne⟩
  constructor
  · intro hres' z hz hsame
    have hroute := (resolve_dir.mp ⟨hres', hi'⟩).1
    rw [h.route_blocked allElements_ne_nil ⟨z, hz, hsame⟩] at hroute
    cases hroute
  · intro hold
    obtain ⟨y, hy, -, -, hxy⟩ := h.route_mirrors allElements_ne_nil hold (resolve_dir.mp ⟨hres, hi⟩).1
    rcases hxy with ⟨-, rfl⟩ | ⟨hbad, -⟩
    · exact (resolve_dir.mpr ⟨hy, hi'⟩).1
    · exact absurd hbad hne

/-- A path that ends at the new name leads to what is moved, if it does not ask
for the old one. -/
theorem resolve_new_iff (hpath : s.spot path = some (d, lastName path))
    (hlast : sameName (lastName path) name = true) :
    t.resolve path = some sip ↔ s.Avoids path (sd, sname) := by
  rw [walk_eq_route] at hpath
  obtain ⟨x, hroute, heq⟩ := Option.map_eq_some_iff.mp hpath
  cases heq
  rw [resolve_eq_route]
  constructor
  · intro hres z hz hsame
    rcases mem_asks.mp hz with hz | ⟨-, x, hx, rfl⟩
    · rw [h.route_blocked elements_ne_nil ⟨z, hz, hsame⟩] at hres
      cases hres
    · cases hroute.symm.trans hx
      exact h.other ⟨hsame.1, sameName_trans (sameName_comm.trans hlast) hsame.2⟩
  · intro hold
    obtain ⟨y, hy, -, -, hxy⟩ := h.route_mirrors elements_ne_nil
      (fun z hz => hold z (mem_asks.mpr (.inl hz))) hroute
    have hne : lastName path ≠ [] := by
      intro hnil
      rw [hnil, sameName_nil_iff] at hlast
      exact h.nonempty hlast
    rcases hxy with ⟨-, rfl⟩ | ⟨hbad, -⟩
    · rw [hy, Option.bind_some, Img.at, if_neg hne, find_sameName hlast, h.new]
    · exact absurd hbad (h.ne_dest)

end Transplant

end Yaos.Fs
