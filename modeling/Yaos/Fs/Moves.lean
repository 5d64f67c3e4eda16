import Yaos.Fs.Misplaced
import Yaos.Fs.Transfers

/-!
# `do_mv`

What a move should do, for paths: the destination names the file, its old path
does not, and other paths lead where they led; a move that fails leaves the file
where it was. `moves_right_iff` says when `do_mv` does that.
-/

namespace Yaos.Fs

open Yaos.Lib Prog Relation

variable {s t u v w : Img} {c d dip i ip j k sd sip : Nat} {name nm spath dpath path : Name}

/-! ## What a move should do -/

/-- The name that the destination stands for: the one of the source in a
directory, or its own. -/
def Img.goal (s : Img) (spath dpath : Name) : Option (Nat × Name) :=
  match s.resolve dpath with
  | some dip => if (s.inode dip).type = .dir then some (dip, lastName spath) else s.spot dpath
  | none => s.spot dpath

def Img.SameEntry (s : Img) (spath dpath : Name) : Prop :=
  Proper spath ∧ ∃ a b, s.spot spath = some a ∧ s.goal spath dpath = some b ∧ SameSpot a b

/-- The file `sip` has moved. -/
structure Relocated (s t : Img) (spath dpath : Name) (sip : Nat) : Prop where
  entry : ∃ spot, s.goal spath dpath = some spot ∧ t.at spot = some sip
  inside : ∀ dip, s.resolve dpath = some dip → s.IsDir dip → t.resolve dpath = some dip
  itself : (∀ dip, s.resolve dpath = some dip → ¬ s.IsDir dip) → t.resolve dpath = some sip
  type : (t.inode sip).type = (s.inode sip).type
  bytes : ¬ s.IsDir sip → t.bytes sip = s.bytes sip
  gone : s.SameEntry spath dpath ∨
    (∀ spot, s.spot spath = some spot → t.at spot ≠ some sip) ∧ t.resolve spath ≠ some sip
  rest : ∀ path, (∀ spot, s.spot spath = some spot ∨ s.goal spath dpath = some spot →
    s.Avoids path spot) → t.resolve path = s.resolve path

/-- The file `sip` is where it was. -/
structure Still (s t : Img) (spath : Name) (sip : Nat) : Prop where
  path : t.resolve spath = some sip
  type : (t.inode sip).type = (s.inode sip).type
  bytes : t.bytes sip = s.bytes sip

/-- What the answer of `do_mv` should mean. -/
def Answers (s : Img) (spath dpath : Name) (sip : Nat) : Status → Img → Prop
  | .success, t => Relocated s t spath dpath sip
  | .failure, t => Still s t spath sip

/-- What `do_mv` should do with the file that `spath` names. A stop is a failure. -/
def MovesRight (s : Img) (spath dpath : Name) : Prop :=
  ∀ sip, s.resolve spath = some sip →
    Ends (exec (.mv spath dpath)) s (Answers s spath dpath sip) fun _ t => Still s t spath sip

/-! ## When it does -/

/-- `sip`, at `spath`, can be entered as `name` in the directory `d`. -/
structure MoveFits (s : Img) (spath dpath : Name) (sip d : Nat) (name : Name) : Prop where
  /-- the last element of the path is a name that can be taken away -/
  proper : Proper spath
  /-- there is room for a new name -/
  room : inodeOf (s.find d name) = none → s.HasRoom d
  /-- the new name is not the old one -/
  other : ∀ spot, s.spot spath = some spot → ¬ SameSpot (d, name) spot
  /-- with the new entry in place the old path comes to the same directory -/
  away : route (s.via d name sip) root (elements spath) = route s.descend root (elements spath)
  /-- the destination is not reached by way of the source -/
  apart : ∀ spot, s.spot spath = some spot → s.Avoids dpath spot

/-- The blocks that come free when a file loses a name. -/
def Img.freed (s : Img) (i : Nat) : Nat := if (s.inode i).nlink = 1 then (s.file i).cost else 0

/-- When `do_mv` does what it should, case by case. A `Starved` directory makes
it stop before anything is lost. -/
@[mk_iff] structure MvOk (s : Img) (spath dpath : Name) (sip : Nat) : Prop where
  new : s.resolve dpath = none → ∀ d, s.Parent dpath d → s.Starved 0 d (baseName dpath) ∨
    s.resolve (dirPart dpath) = some d ∧ MoveFits s spath dpath sip d (baseName dpath)
  into : ∀ dip, s.resolve dpath = some dip → s.IsDir dip →
    (∀ ip, inodeOf (s.find dip (baseName spath)) = some ip → s.Yields ip sip) →
    s.Starved 0 dip (baseName spath) ∨ MoveFits s spath dpath sip dip (baseName spath)
  onto : ∀ dip, s.resolve dpath = some dip → (s.inode dip).type = .file →
    (s.inode sip).type = .file → ¬ s.SameEntry spath dpath ∧
      ∀ d, s.resolve (dirName dpath) = some d → s.IsDir d →
        s.Starved (s.freed dip) d (baseName dpath) ∨
        s.resolve (dirPart dpath) = some d ∧ MoveFits s spath dpath sip d (baseName dpath)

/-! ## A move that returns -/

/-- `do_mv` has come to its end in the directory that the destination stands for. -/
structure Attempt (s w t : Img) (spath dpath : Name) (sip sd d : Nat) (name : Name) : Prop where
  whole : Whole s
  proper : Proper spath
  spot : s.spot spath = some (sd, lastName spath)
  source : s.Called sd (lastName spath) sip
  dir : s.IsDir d
  nonempty : name ≠ []
  zero : 0 ∉ name
  goal : s.goal spath dpath = some (d, name.take dirsiz)
  path : s.resolve dpath = some d ∧ s.IsDir d ∨ s.spot dpath = some (d, lastName dpath) ∧
    sameName (lastName dpath) name = true ∧ ∀ dip, s.resolve dpath = some dip → ¬ s.IsDir dip
  prepared : Prepared s w sip d name
  moved : Moved w t d name sip spath

theorem at_take (hname : name ≠ []) : t.at (d, name.take dirsiz) = inodeOf (t.find d name) := by
  rw [Img.at, if_neg (take_ne_nil hname), find_take]

theorem sameSpot_take {z : Nat × Name} : SameSpot z (d, name.take dirsiz) ↔ SameSpot z (d, name) := by
  rw [SameSpot, SameSpot, sameName_comm, sameName_take, sameName_comm]

namespace Attempt

variable (h : Attempt s w t spath dpath sip sd d name)

include h

theorem entry (hre : Relocated s t spath dpath sip) : inodeOf (t.find d name) = some sip := by
  obtain ⟨spot, hspot, hat⟩ := hre.entry
  cases h.goal.symm.trans hspot
  rwa [at_take h.nonempty] at hat

theorem room (hre : Relocated s t spath dpath sip) (hnone : inodeOf (s.find d name) = none) :
    s.HasRoom d := by
  by_contra hno
  have hentry := h.entry hre
  have hnot : inodeOf (t.find d name) = none := by
    refine h.moved.not_found (h.prepared.whole h.whole) (h.prepared.dir h.dir) h.nonempty
      (h.prepared.none h.nonempty) fun u m _ _ hplace _ => ?_
    cases h.prepared with
    | new _ hw => exact absurd (HasRoom.of_place (hw ▸ hplace)) hno
    | overwrite k ip hfind =>
      rw [hfind] at hnone
      cases hnone
  rw [hnot] at hentry
  cases hentry

theorem other (hre : Relocated s t spath dpath sip) : ¬ SameSpot (d, name) (sd, lastName spath) := by
  rintro ⟨hd, hsame⟩
  have hd : d = sd := hd
  subst hd
  have hfound : inodeOf (s.find d name) = some sip := by
    rw [find_sameName hsame]
    exact h.source.found
  have hprepared := h.prepared
  cases hprepared with
  | new hnone =>
    rw [hnone] at hfound
    cases hfound
  | overwrite k ip hfind _ hclear =>
    rw [hfind] at hfound
    cases hfound
    have hinum := (find_eq_some hfind).1
    have hinum' := (h.prepared.kept h.whole).trans h.moved.kept |>.inum hinum
    by_cases hfree : (w.node sip).type = .free
    · -- the file has gone
      have htype := hre.type
      rw [← type_of_inum hinum', ← type_of_inum hinum, h.moved.type_free hfree] at htype
      exact h.whole.grown.rows.held hclear.holds htype.symm
    · have hfile : ¬ s.IsDir sip := by
        intro hdir
        refine hclear.not_dir (isDir_iff.mpr ?_)
        rw [h.prepared.type hfree]
        exact isDir_iff.mp hdir
      have hgone := hclear.taken_back hfind hfile hfree h.nonempty h.zero h.source
        (sameName_comm.trans hsame) h.spot h.moved
      rw [h.entry hre] at hgone
      cases hgone

theorem graft (hroom : inodeOf (s.find d name) = none → s.HasRoom d)
    (hother : ¬ SameSpot (d, name) (sd, lastName spath)) :
    ∃ j u v, Graft s w u sd (lastName spath) d j name sip ∧ Spared w u d ∧ Kept u v ∧
      Unlinks u v root spath ∧ Kept v t ∧ Reparented v t d sip := by
  obtain ⟨v, ⟨u, hwu, hentered, hspared, huv, hun⟩, hvt, hpar⟩ := h.moved
  obtain ⟨j, hplace⟩ := h.prepared.place h.whole h.dir h.nonempty hroom
  rw [Entered, hplace, Option.elim_some] at hentered
  have hexchange := h.prepared.exchange h.whole h.dir h.nonempty h.source hother
  exact ⟨j, u, v, hexchange.graft h.prepared h.zero hplace hwu hentered, hspared, huv, hun, hvt, hpar⟩

theorem route_source : route s.descend root (elements spath) = some sd := by
  have hspot := h.spot
  rw [walk_eq_route] at hspot
  obtain ⟨x, hroute, heq⟩ := Option.map_eq_some_iff.mp hspot
  cases heq
  exact hroute

theorem away (hre : Relocated s t spath dpath sip) :
    route (s.via d name sip) root (elements spath) = route s.descend root (elements spath) := by
  have hother := h.other hre
  obtain ⟨j, u, v, hgraft, -, huv, hun, hvt, hpar⟩ := h.graft (h.room hre) hother
  by_cases hsip : s.IsDir sip
  · by_contra hno
    have hstays := hgraft.stays hsip rfl (fun hwalk => hno ?_) huv hun hvt hpar
    · rcases hre.gone with ⟨-, a, b, ha, hb, hsame⟩ | ⟨hgone, -⟩
      · cases h.spot.symm.trans ha
        cases h.goal.symm.trans hb
        exact hother ⟨hsame.1.symm, sameName_comm.trans (sameSpot_take.mp hsame).2⟩
      · refine hgone _ h.spot ?_
        rw [Img.at, if_neg h.source.nonempty, hstays]
    · rw [walk_eq_route, hgraft.route_via elements_ne_nil] at hwalk
      obtain ⟨x, hroute, heq⟩ := Option.map_eq_some_iff.mp hwalk
      cases heq
      rw [hroute, h.route_source]
  · rw [hgraft.via_file hsip]

/-- **A move whose steps all do their part.** -/
theorem transplant (hroom : inodeOf (s.find d name) = none → s.HasRoom d)
    (hother : ¬ SameSpot (d, name) (sd, lastName spath))
    (haway : route (s.via d name sip) root (elements spath) = route s.descend root (elements spath)) :
    Transplant s t sd (lastName spath) d name sip ∧ (t.inode sip).type = (s.inode sip).type ∧
      (¬ s.IsDir sip → t.bytes sip = s.bytes sip) := by
  obtain ⟨j, u, v, hgraft, hspared, huv, hun, hvt, hpar⟩ := h.graft hroom hother
  have hwalk : u.spot spath = some (sd, lastName spath) := by
    rw [walk_eq_route, hgraft.route_via elements_ne_nil, haway, h.route_source]
    rfl
  obtain ⟨htrans, htype⟩ := hgraft.transplant hwalk huv hun hvt hpar
  have hinum := find_inum h.source.found
  have hkept := (h.prepared.kept h.whole).trans h.moved.kept
  rw [type_of_inum hinum, type_of_inum (hkept.inum hinum)] at htype
  refine ⟨htrans, htype, fun hsip => hgraft.bytes hspared hun hpar hsip ?_⟩
  rw [← hpar.type, type_of_inum (hkept.inum hinum), htype, ← type_of_inum hinum]
  obtain ⟨k, nm, hholds, -⟩ := h.source.entry h.whole
  exact h.whole.grown.rows.held hholds

theorem apart_iff (ht : Transplant s t sd (lastName spath) d name sip) :
    s.Avoids dpath (sd, lastName spath) ↔
      (∀ dip, s.resolve dpath = some dip → s.IsDir dip → t.resolve dpath = some dip) ∧
        ((∀ dip, s.resolve dpath = some dip → ¬ s.IsDir dip) → t.resolve dpath = some sip) := by
  rcases h.path with ⟨hres, hdir⟩ | ⟨hspot, hsame, hnot⟩
  · rw [← ht.resolve_dir_iff hres hdir ht.ne_dest]
    constructor
    · intro hres'
      refine ⟨fun dip hdip _ => ?_, fun hno => absurd hdir (hno d hres)⟩
      cases hres.symm.trans hdip
      exact hres'
    · intro hboth
      exact hboth.1 d hres hdir
  · rw [← ht.resolve_new_iff hspot hsame]
    constructor
    · intro hres'
      exact ⟨fun dip hdip hdir => absurd hdir (hnot dip hdip), fun _ => hres'⟩
    · intro hboth
      exact hboth.2 hnot

/-- **A move to the right directory** does what it should if and only if the file
fits there. -/
theorem relocated_iff : Relocated s t spath dpath sip ↔ MoveFits s spath dpath sip d name := by
  constructor
  · intro hre
    have hother := h.other hre
    obtain ⟨htrans, -⟩ := h.transplant (h.room hre) hother (h.away hre)
    refine ⟨h.proper, h.room hre, fun spot hspot => ?_, h.away hre, fun spot hspot => ?_⟩
    · cases h.spot.symm.trans hspot
      exact hother
    · cases h.spot.symm.trans hspot
      exact (h.apart_iff htrans).mpr ⟨hre.inside, hre.itself⟩
  · intro hfits
    obtain ⟨htrans, htype, hbytes⟩ := h.transplant hfits.room (hfits.other _ h.spot) hfits.away
    obtain ⟨hinside, hitself⟩ := (h.apart_iff htrans).mp (hfits.apart _ h.spot)
    refine ⟨⟨_, h.goal, ?_⟩, hinside, hitself, htype, hbytes, .inr ⟨?_, htrans.resolve_source h.spot⟩, ?_⟩
    · rw [at_take h.nonempty]
      exact htrans.new
    · intro spot hspot
      cases h.spot.symm.trans hspot
      rw [Img.at, if_neg h.source.nonempty, htrans.gone]
      rintro ⟨⟩
    · intro path havoid
      refine htrans.resolve_rest (fun z hz hsame => ?_) (havoid _ (.inl h.spot))
      exact havoid _ (.inr h.goal) z hz (sameSpot_take.mpr hsame)

end Attempt

/-! ## A move that stops -/

theorem Halted.node (h : Halted s t) (hs : Blocks s) : t.node = s.node := by
  funext i
  rw [Img.node, Img.node, h.sb]
  split
  next hi => rw [h.file hs hi]
  next => rfl

theorem Halted.still_iff (h : Halted w t) (hw : Tidy w) (hsip : w.sb.Inum sip) :
    Still s t spath sip ↔ Still s w spath sip := by
  have hres := (Alike.of_node h.sb (h.node hw.sound.blocks)).resolve hw spath
  have hfile := h.file hw.sound.blocks hsip
  have htype : (t.inode sip).type = (w.inode sip).type := congrArg File.type hfile
  have hbytes : t.bytes sip = w.bytes sip := congrArg File.data hfile
  constructor
  · rintro ⟨hpath, hsame, hdata⟩
    exact ⟨hres ▸ hpath, htype ▸ hsame, hbytes ▸ hdata⟩
  · rintro ⟨hpath, hsame, hdata⟩
    exact ⟨hres.trans hpath, htype.trans hsame, hbytes.trans hdata⟩

theorem still_self (hres : s.resolve spath = some sip) : Still s s spath sip := ⟨hres, rfl, rfl⟩

/-- A directory does not grow for an entry if it has a free one, or the name. -/
theorem not_starved {gain : Nat} {e : Dirent} (hk : (s.node d).ents[k]? = some e)
    (he : e.inum = 0 ∨ sameName e.name name = true) : ¬ s.Starved gain d name := by
  rintro ⟨j, hplace, hlt⟩
  obtain ⟨m, hm, -, -, hbefore⟩ := freeIdx_eq_some (place_eq_some hplace).1
  rw [Nat.zero_add] at hm
  subst hm
  have hklt := (List.getElem?_eq_some_iff.mp hk).1
  have hle : j ≤ k := by
    by_contra hgt
    have hmem : e ∈ (s.node d).ents.take j := by
      rw [List.mem_iff_getElem?]
      exact ⟨k, by rw [List.getElem?_take, if_pos (by omega), hk]⟩
    obtain ⟨hlive, hdiff⟩ := hbefore e hmem
    rcases he with hdead | hsame
    · exact hlive hdead
    · rw [hdiff] at hsame
      cases hsame
  rw [Nat.max_eq_left (by omega)] at hlt
  omega

theorem not_starved_of_found {gain : Nat} (hfound : inodeOf (s.find d name) = some ip) :
    ¬ s.Starved gain d name := by
  obtain ⟨off, hfind⟩ := inodeOf_eq_some hfound
  obtain ⟨-, k, nm, hk, hsame, -⟩ := find_eq_some hfind
  exact not_starved hk (.inr (sameName_comm.trans hsame))

theorem Cleared.not_starved {gain : Nat} (h : Cleared s w d k ip) : ¬ w.Starved gain d name := by
  refine Fs.not_starved (k := k) (e := ⟨0, []⟩) ?_ (.inl rfl)
  rw [h.ents, getElem?_setAt h.edit.le, if_pos rfl]

/-! ## A destination with a name of its own -/

theorem sameName_lastName : sameName (lastName path) nm = sameName (baseName path) nm := sameName_take

theorem source_of_proper (h : Whole s) (hres : s.resolve spath = some sip) (hp : Proper spath) :
    ∃ sd, s.spot spath = some (sd, lastName spath) ∧ s.Called sd (lastName spath) sip := by
  obtain ⟨sd, hwalk, hat⟩ := resolve_base hres
  have hne := take_ne_nil hp.1
  rw [Img.at, if_neg hne] at hat
  refine ⟨sd, hwalk, walk_isDir _ _ _ h.tidy.isDir_root hwalk, hne, ?_, hat⟩
  rw [sameName_lastName, sameName_lastName]
  exact hp.2

theorem Moved.not_relocated (hmoved : Moved s t d name sip spath) (hs : Whole s) (hd : s.IsDir d)
    (hres : s.resolve spath = some sip) (hroot : sip ≠ root) (hp : ¬ Proper spath) :
    ¬ Relocated s t spath dpath sip := by
  intro hre
  rcases hre.gone with hsame | ⟨hgone, -⟩
  · exact hp hsame.1
  · obtain ⟨spot, hspot, hat⟩ := Option.bind_eq_some_iff.mp (hmoved.improper hs hd hres hroot hp)
    exact hgone spot hspot hat

theorem goal_of_not_dir (hno : ∀ dip, s.resolve dpath = some dip → ¬ s.IsDir dip) (h : Tidy s) :
    s.goal spath dpath = s.spot dpath := by
  rw [Img.goal]
  cases hres : s.resolve dpath with
  | none => rfl
  | some dip => exact if_neg fun hdir => hno dip hres ⟨resolve_inum h hres, hdir⟩

/-- **A move to a name** does what it should if and only if its directory is the
one that the path leads to, and the file fits there. -/
theorem Moved.relocated_iff (h : Whole s) (hp : Proper spath) (hres : s.resolve spath = some sip)
    (hd0 : 0 ∉ dpath) (hbase : baseName dpath ≠ [])
    (hno : ∀ dip, s.resolve dpath = some dip → ¬ s.IsDir dip) (hw : Whole w) (hdir : s.IsDir d)
    (hprepared : ∀ c, s.spot dpath = some (c, lastName dpath) → Prepared s w sip c (baseName dpath))
    (hmoved : Moved w t d (baseName dpath) sip spath) :
    Relocated s t spath dpath sip ↔
      s.resolve (dirPart dpath) = some d ∧ MoveFits s spath dpath sip d (baseName dpath) := by
  have hgoal : s.goal spath dpath = s.spot dpath := goal_of_not_dir hno h.tidy
  by_cases hpart : s.resolve (dirPart dpath) = some d
  · have hspot : s.spot dpath = some (d, lastName dpath) := resolve_dirPart.mp hpart
    obtain ⟨sd, hsource, hcalled⟩ := source_of_proper h hres hp
    have hattempt : Attempt s w t spath dpath sip sd d (baseName dpath) :=
      { whole := h, proper := hp, spot := hsource, source := hcalled, dir := hdir, nonempty := hbase
        zero := fun hmem => hd0 (mem_of_mem_baseName hmem)
        goal := hgoal.trans hspot
        path := .inr ⟨hspot, sameName_comm.trans sameName_take_self, hno⟩
        prepared := hprepared d hspot
        moved := hmoved }
    rw [hattempt.relocated_iff, and_iff_right hpart]
  · -- the name is looked for in another directory
    refine iff_of_false (fun hre => ?_) fun hfits => hpart hfits.1
    obtain ⟨⟨c, nm⟩, hspot, hat⟩ := hre.entry
    rw [hgoal] at hspot
    cases walk_baseName hspot
    have hready := hprepared c hspot
    have hc := hready.dir (walk_isDir _ _ _ h.tidy.isDir_root hspot)
    rw [at_take hbase, hmoved.not_found hw hc hbase (hready.none hbase)] at hat
    · cases hat
    · rintro u m - - - rfl
      exact absurd (resolve_dirPart.mpr hspot) hpart

theorem forall_iff_of_unique {P Q : Nat → Prop} (hd : P d) (hunique : ∀ c, P c → c = d) :
    (∀ c, P c → Q c) ↔ Q d := by
  constructor
  · intro hall
    exact hall d hd
  · intro hq c hc
    rw [hunique c hc]
    exact hq

theorem moveTo_iff (h : Whole s) (hres : s.resolve spath = some sip) (hroot : sip ≠ root)
    (hd0 : 0 ∉ dpath) (hnone : s.resolve dpath = none) :
    Ends (moveTo sip spath dpath) s (Answers s spath dpath sip) (fun _ t => Still s t spath sip) ↔
      ∀ d, s.Parent dpath d → s.Starved 0 d (baseName dpath) ∨
        s.resolve (dirPart dpath) = some d ∧ MoveFits s spath dpath sip d (baseName dpath) := by
  have hsip := resolve_inum h.tidy hres
  have hstill := still_self hres
  have hunique : ∀ {d}, s.Parent dpath d → ∀ c, s.Parent dpath c → c = d := by
    rintro d ⟨-, hd, -⟩ c ⟨-, hc, -⟩
    exact Option.some.inj (hc.symm.trans hd)
  refine Ends.iff ((moveTo_runs h.tidy hsip hroot spath dpath).mono ?_ ?_)
  · rintro st t (⟨rfl, rfl, hno⟩ | ⟨rfl, -, d, hparent, hroom, hmoved⟩)
    · exact iff_of_true hstill fun d hd => absurd hd (hno d)
    rw [forall_iff_of_unique hparent (hunique hparent), or_iff_right hroom]
    obtain ⟨hbase, -, hdir⟩ := hparent
    by_cases hp : Proper spath
    · refine hmoved.relocated_iff h hp hres hd0 hbase (fun dip hdip => ?_) h hdir fun c hspot => ?_
      · rw [hnone] at hdip
        cases hdip
      · refine .new ?_ rfl
        rw [← at_take hbase]
        rw [Img.resolve, hspot] at hnone
        exact hnone
    · exact iff_of_false (hmoved.not_relocated h hdir hres hroot hp) fun hfits => hp hfits.2.proper
  · rintro e t ⟨-, d, hparent, hstarved, hhalt⟩
    refine iff_of_true ((hhalt.still_iff h.tidy hsip).mpr hstill) ?_
    rw [forall_iff_of_unique hparent (hunique hparent)]
    exact .inl hstarved

/-! ## A directory as destination -/

theorem Opens.prepared (hopens : Opens s w sip d (baseName spath)) (h : Whole s) (hd : s.IsDir d)
    (hp : Proper spath) : Prepared s w sip d (baseName spath) := by
  cases hopens with
  | new hnone hw => exact .new hnone hw
  | overwrite ip hfound hyields hw hu _ =>
    obtain ⟨k, hfind, hclear⟩ := h.opened hd hp hfound hyields hw hu
    exact .overwrite k ip hfind hyields hclear hu.bytes

/-- No entry is taken away for `.`, `..` or no name. -/
theorem Opens.same (hopens : Opens s w sip d (baseName spath)) (hp : ¬ Proper spath) : w = s := by
  cases hopens with
  | new _ hw => exact hw
  | overwrite ip _ _ _ hu _ =>
    refine hu.same ?_
    rintro c k i ⟨nm, hwalk, hne, -, hdots⟩
    rw [walk_plain (baseName_plain spath) _] at hwalk
    cases hwalk
    rw [sameName_take, sameName_take] at hdots
    refine hp ⟨?_, hdots⟩
    intro hnil
    rw [hnil] at hne
    exact hne rfl

theorem Opens.starved (hopens : Opens s w sip d (baseName spath)) (h : Whole s) (hd : s.IsDir d) :
    w.Starved 0 d (baseName spath) ↔ s.Starved 0 d (baseName spath) := by
  have hboth := hopens
  cases hopens with
  | new _ hw => rw [hw]
  | overwrite ip hfound hyields hw hu _ =>
    refine iff_of_false ?_ (not_starved_of_found hfound)
    by_cases hp : Proper spath
    · obtain ⟨k, -, hclear⟩ := h.opened hd hp hfound hyields hw hu
      exact hclear.not_starved
    · rw [hboth.same hp]
      exact not_starved_of_found hfound

theorem moveInto_iff (h : Whole s) (hres : s.resolve spath = some sip) (hroot : sip ≠ root)
    (hs0 : 0 ∉ spath) (hdres : s.resolve dpath = some dip) (hdir : s.IsDir dip) :
    Ends (moveInto sip dip spath (baseName spath)) s (Answers s spath dpath sip)
        (fun _ t => Still s t spath sip) ↔
      ((∀ ip, inodeOf (s.find dip (baseName spath)) = some ip → s.Yields ip sip) →
        s.Starved 0 dip (baseName spath) ∨ MoveFits s spath dpath sip dip (baseName spath)) := by
  have hsip := resolve_inum h.tidy hres
  have hstill := still_self hres
  have hyields : ∀ {w}, Opens s w sip dip (baseName spath) →
      ∀ ip, inodeOf (s.find dip (baseName spath)) = some ip → s.Yields ip sip := by
    intro w hopens ip hfound
    cases hopens with
    | new hnone =>
      rw [hnone] at hfound
      cases hfound
    | overwrite ip' hfound' hyields =>
      rw [hfound'] at hfound
      cases hfound
      exact hyields
  refine Ends.iff ((moveInto_runs h.tidy hdir hsip hroot (baseName_plain spath) spath).mono ?_ ?_)
  · rintro st t (⟨rfl, rfl, ip, hfound, hno⟩ | ⟨rfl, -, w, hopens, hroom, hmoved⟩)
    · exact iff_of_true hstill fun hall => absurd (hall ip hfound) hno
    rw [hopens.starved h hdir] at hroom
    rw [forall_prop_of_true (hyields hopens), or_iff_right hroom]
    by_cases hp : Proper spath
    · obtain ⟨sd, hsource, hcalled⟩ := source_of_proper h hres hp
      refine Attempt.relocated_iff
        { whole := h, proper := hp, spot := hsource, source := hcalled, dir := hdir, nonempty := hp.1
          zero := fun hmem => hs0 (mem_of_mem_baseName hmem)
          goal := ?_
          path := .inl ⟨hdres, hdir⟩
          prepared := hopens.prepared h hdir hp
          moved := hmoved }
      rw [Img.goal, hdres]
      exact if_pos hdir.2
    · cases hopens.same hp
      exact iff_of_false (hmoved.not_relocated h hdir hres hroot hp) fun hfits => hp hfits.proper
  · rintro e t ⟨-, w, hopens, hstarved, hhalt⟩
    rw [hopens.starved h hdir] at hstarved
    refine iff_of_true ?_ fun _ => .inl hstarved
    -- an entry that was taken away has left room
    cases hopens with
    | new _ hw =>
      subst hw
      exact (hhalt.still_iff h.tidy hsip).mpr hstill
    | overwrite ip hfound => exact absurd hstarved (not_starved_of_found hfound)

/-! ## A file as destination -/

/-- The name of the file `dip` has been taken away for `sip`. -/
structure Overwritten (s w : Img) (dpath : Name) (sip dip dd k : Nat) : Prop where
  clear : Cleared s w dd k dip
  unlinks : Unlinks s w root dpath
  names : s.Names root dpath dd k dip
  file : ¬ s.IsDir dip
  yields : s.Yields dip sip
  base : baseName dpath ≠ []

theorem Whole.overwritten (h : Whole s) (hw : Kept s w) (hu : Unlinks s w root dpath)
    (hdres : s.resolve dpath = some dip) (hfile : (s.inode dip).type = .file)
    (hsfile : (s.inode sip).type = .file) : ∃ dd k, Overwritten s w dpath sip dip dd k := by
  have hi := not_dir_of_file (resolve_inum h.tidy hdres) hfile
  have hp := proper_of_file h.tidy h.grown hdres hi
  obtain ⟨dd, k, hold⟩ := names_of_proper hdres hp
  exact ⟨dd, k, h.cleared hw h.tidy.isDir_root hold hu (.inl hi), hu, hold,
    fun hdir => hi (isDir_iff.mp hdir), .inr ⟨hfile, hsfile⟩, hp.1⟩

namespace Overwritten

variable {dd : Nat} (h : Overwritten s w dpath sip dip dd k)

include h

theorem spot : s.spot dpath = some (dd, lastName dpath) := by
  obtain ⟨nm, hwalk, -⟩ := h.names
  cases walk_baseName hwalk
  exact hwalk

theorem find : s.find dd (baseName dpath) = some (some dip, direntSize * k) := by
  obtain ⟨nm, hwalk, -, hfind, -⟩ := h.names
  cases walk_baseName hwalk
  rwa [find_take] at hfind

theorem prepared : Prepared s w sip dd (baseName dpath) :=
  .overwrite k dip h.find h.yields h.clear h.unlinks.bytes

theorem dir : s.IsDir dd := isDir_iff.mpr h.clear.holds.1

theorem dirs : w.IsDir c ↔ s.IsDir c := by
  rw [h.clear.dirs, and_iff_left_iff_imp]
  rintro hc rfl
  exact h.file hc

theorem descend (hc : s.IsDir c) (hnm : nm ≠ []) : w.descend c nm = s.descend c nm := by
  ext y
  rw [descend_eq_some, descend_eq_some, h.dirs]
  refine and_congr_left fun hy => ?_
  by_cases hsame : SameSpot (c, nm) (dd, baseName dpath)
  · obtain ⟨hcd, hname⟩ := hsame
    have hcd : c = dd := hcd
    subst hcd
    rw [find_sameName hname, find_sameName hname, h.prepared.none h.base, h.find]
    refine iff_of_false (by rintro ⟨⟩) fun heq => ?_
    cases heq
    exact h.file hy
  · rw [h.prepared.find_rest (h.dirs.mpr hc) h.dir h.base hnm hsame]

theorem route_descend {l : List Name} (hl : ∀ nm ∈ l, nm ≠ []) :
    route w.descend root l = route s.descend root l := by
  have hroot := h.clear.whole.tidy.isDir_root
  have hdirs : ∀ x ∈ lookups s.descend root l, s.IsDir x.1 :=
    (route_inv s.IsDir hroot fun _ _ _ _ hstep => (descend_eq_some.mp hstep).2).1
  exact route_congr fun x hx => h.descend (hdirs x hx) (hl _ (mem_of_mem_lookups hx))

theorem resolve_dirs : (w.resolve path = some d ∧ w.IsDir d) ↔ (s.resolve path = some d ∧ s.IsDir d) := by
  rw [resolve_dir, resolve_dir, h.route_descend allElements_ne_nil, h.dirs]

theorem sameEntry_iff {sd : Nat} (hp : Proper spath) (hspot : s.spot spath = some (sd, lastName spath))
    (hno : ∀ dip, s.resolve dpath = some dip → ¬ s.IsDir dip) :
    s.SameEntry spath dpath ↔ SameSpot (sd, lastName spath) (dd, baseName dpath) := by
  have hgoal : s.goal spath dpath = some (dd, lastName dpath) :=
    (goal_of_not_dir hno h.clear.whole.tidy).trans h.spot
  constructor
  · rintro ⟨-, a, b, ha, hb, hsame⟩
    cases hspot.symm.trans ha
    cases hgoal.symm.trans hb
    exact sameSpot_take.mp hsame
  · intro hsame
    exact ⟨hp, _, _, hspot, hgoal, sameSpot_take.mpr hsame⟩

/-- The file that is moved is where it was, unless its name was the one. -/
theorem still_iff (hres : s.resolve spath = some sip) (hfile : (s.inode sip).type = .file)
    (hno : ∀ dip, s.resolve dpath = some dip → ¬ s.IsDir dip) :
    Still s w spath sip ↔ ¬ s.SameEntry spath dpath := by
  have hs := h.clear.whole
  have hinum := resolve_inum hs.tidy hres
  have hnot := not_dir_of_file hinum hfile
  have hp := proper_of_file hs.tidy hs.grown hres hnot
  obtain ⟨sd, hspot, hcalled⟩ := source_of_proper hs hres hp
  have hpath : w.resolve spath = inodeOf (w.find sd (lastName spath)) := by
    have hroute : route s.descend root (elements spath) = some sd := by
      rw [walk_eq_route] at hspot
      obtain ⟨x, hroute, heq⟩ := Option.map_eq_some_iff.mp hspot
      cases heq
      exact hroute
    rw [resolve_eq_route, h.route_descend elements_ne_nil, hroute, Option.bind_some, Img.at,
      if_neg hcalled.nonempty]
  rw [h.sameEntry_iff hp hspot hno]
  constructor
  · rintro ⟨hstill, -, -⟩ ⟨hd, hsame⟩
    have hd : sd = dd := hd
    subst hd
    rw [hpath, find_sameName hsame, h.prepared.none h.base] at hstill
    cases hstill
  · intro hother
    have hfound := h.prepared.find_rest (h.dirs.mpr hcalled.dir) h.dir h.base hcalled.nonempty hother
    rw [hcalled.found] at hfound
    -- what has a name is in use
    have hw := h.clear.after
    obtain ⟨m, nm, hholds, -⟩ := Img.Called.entry
      ⟨h.dirs.mpr hcalled.dir, hcalled.nonempty, hcalled.proper, hfound⟩ hw
    have hused := hw.grown.rows.held hholds
    have htype := h.prepared.type hused
    rw [type_of_inum hinum, type_of_inum (h.clear.kept.inum hinum)] at htype
    exact ⟨hpath.trans hfound, htype,
      h.unlinks.bytes sip hinum (fun hdir => hnot (isDir_iff.mp hdir)) hused⟩

theorem free : w.free = s.free + s.freed dip := by
  have hs := h.clear.whole
  have hinum : s.sb.Inum dip := (find_eq_some h.find).1
  have hfile : (s.node dip).type ≠ .dir := fun hdir => h.file (isDir_iff.mpr hdir)
  have hheld := hs.grown.rows.held h.clear.holds
  have hfits := hs.grown.counts.fits dip hheld
  have hnlink : (subLink (setEnt s.node dd k ⟨0, []⟩) dip dip).nlink =
      ((s.node dip).nlink + (2 ^ 16 - 1)) % 2 ^ 16 := by
    rw [nlink_subLink, if_pos rfl, nlink_setEnt]
  have hlink : (s.inode dip).nlink = (s.node dip).nlink := by
    rw [node_of_inum hinum]
    rfl
  have hsum := h.unlinks.free dd k dip h.names
  have hnode := congrFun h.clear.node dip
  rw [unlinked_of_file hfile] at hnode
  rw [Img.freed, hlink]
  split
  next hlast =>
    rw [reap_of_zero (by rw [hnlink, hlast]; rfl), Function.update_self] at hnode
    have hgone : (w.inode dip).type = .free := by
      rw [← type_of_inum (h.clear.kept.inum hinum), hnode]
      rfl
    have hempty := h.clear.kept.tidy.sound.blocks.empty dip (h.clear.kept.inum hinum) (.inl hgone)
    have hcost : (w.file dip).cost = 0 := by
      rw [cost_file, hempty]
      rfl
    omega
  next hmore =>
    rw [reap_of_ne_zero (by rw [hnlink]; omega)] at hnode
    have hkeeps : (w.node dip).type ≠ .free := by
      rw [hnode, type_subLink, type_setEnt]
      exact hheld
    have hcost := cost_congr (h.unlinks.bytes dip hinum h.file hkeeps)
    omega

theorem starved_iff (hd : s.IsDir d) :
    w.Starved 0 d (baseName dpath) ↔ s.Starved (s.freed dip) d (baseName dpath) := by
  by_cases hdd : d = dd
  · subst hdd
    have hfound : inodeOf (s.find d (baseName dpath)) = some dip := by
      rw [h.find]
      rfl
    exact iff_of_false h.clear.not_starved (not_starved_of_found hfound)
  · have hents : (w.node d).ents = (s.node d).ents := by
      rw [h.clear.edit.ents d (h.dirs.mpr hd), ents_setEnt, if_neg hdd]
    rw [Img.Starved, Img.Starved, Img.place, Img.place, hents, h.free, Nat.add_zero]

end Overwritten

theorem moveOnto_iff (h : Whole s) (hres : s.resolve spath = some sip) (hroot : sip ≠ root)
    (hd0 : 0 ∉ dpath) (hdres : s.resolve dpath = some dip) (hfile : (s.inode dip).type = .file) :
    Ends (moveOnto sip spath dpath) s (Answers s spath dpath sip) (fun _ t => Still s t spath sip) ↔
      ((s.inode sip).type = .file → ¬ s.SameEntry spath dpath ∧
        ∀ d, s.resolve (dirName dpath) = some d → s.IsDir d →
          s.Starved (s.freed dip) d (baseName dpath) ∨
          s.resolve (dirPart dpath) = some d ∧ MoveFits s spath dpath sip d (baseName dpath)) := by
  have hsip := resolve_inum h.tidy hres
  have hno : ∀ i, s.resolve dpath = some i → ¬ s.IsDir i := by
    intro i hi hdir
    cases hdres.symm.trans hi
    rw [hdir.2] at hfile
    cases hfile
  refine Ends.iff ((moveOnto_runs h.tidy hsip hroot spath dpath).mono ?_ ?_)
  · rintro st t (⟨rfl, rfl, hother⟩ | ⟨rfl, -, hsfile, w, d, hw, hu, hwd, hwdir, hroom, hmoved⟩)
    · exact iff_of_true (still_self hres) fun hsfile => absurd hsfile hother
    obtain ⟨dd, k, hover⟩ := h.overwritten hw hu hdres hfile hsfile
    obtain ⟨hd, hdir⟩ := hover.resolve_dirs.mp ⟨hwd, hwdir⟩
    rw [hover.starved_iff hdir] at hroom
    have hp := proper_of_file h.tidy h.grown hres (not_dir_of_file hsip hsfile)
    have hiff : Relocated s t spath dpath sip ↔
        s.resolve (dirPart dpath) = some d ∧ MoveFits s spath dpath sip d (baseName dpath) := by
      refine hmoved.relocated_iff h hp hres hd0 hover.base hno hover.clear.after hdir fun c hspot => ?_
      cases hover.spot.symm.trans hspot
      exact hover.prepared
    refine hiff.trans ?_
    rw [forall_prop_of_true hsfile]
    constructor
    · rintro ⟨hpart, hfits⟩
      refine ⟨?_, fun c hc _ => ?_⟩
      · obtain ⟨sd, hspot, -⟩ := source_of_proper h hres hp
        rw [hover.sameEntry_iff hp hspot hno]
        cases hover.spot.symm.trans (resolve_dirPart.mp hpart)
        rintro ⟨hd, hsame⟩
        exact hfits.other _ hspot ⟨hd.symm, sameName_comm.trans hsame⟩
      · cases hd.symm.trans hc
        exact .inr ⟨hpart, hfits⟩
    · rintro ⟨-, hall⟩
      exact (hall d hd hdir).resolve_left hroom
  · rintro e t ⟨hsfile, w, hw, hu, hstop⟩
    obtain ⟨dd, k, hover⟩ := h.overwritten hw hu hdres hfile hsfile
    have hstill := hover.still_iff hres hsfile hno
    rw [forall_prop_of_true hsfile]
    rcases hstop with ⟨-, rfl, hnone⟩ | ⟨-, d, hwd, hwdir, hstarved, hhalt⟩
    · rw [hstill, and_iff_left]
      intro d hd hdir
      obtain ⟨hwd, hwdir⟩ := hover.resolve_dirs.mpr ⟨hd, hdir⟩
      exact absurd hwdir (hnone d hwd)
    · obtain ⟨hd, hdir⟩ := hover.resolve_dirs.mp ⟨hwd, hwdir⟩
      rw [hhalt.still_iff hw.tidy (hw.inum hsip), hstill, and_iff_left]
      intro c hc _
      cases hd.symm.trans hc
      exact .inl ((hover.starved_iff hdir).mp hstarved)

/-! ## The command -/

theorem doMv_root (h : Tidy s) (hres : s.resolve spath = some root) :
    doMv spath dpath s = (.ok .failure, s) := by
  rw [doMv, bind_of_eq (lookup_eq h spath), hres]
  dsimp only
  rw [if_pos rfl]
  rfl

/-- **`do_mv` does what it should** exactly if the file fits where it goes, or no
entry is made for it. -/
theorem moves_right_iff (h : Whole s) (hs0 : 0 ∉ spath) (hd0 : 0 ∉ dpath) :
    MovesRight s spath dpath ↔ ∀ sip, s.resolve spath = some sip → sip ≠ root →
      MvOk s spath dpath sip := by
  refine forall_congr' fun sip => forall_congr' fun hres => ?_
  have hstill := still_self hres
  by_cases hroot : sip = root
  · subst hroot
    refine iff_of_true ?_ fun hne => absurd rfl hne
    rw [Ends, exec, doMv_root h.tidy hres]
    exact hstill
  rw [forall_prop_of_true hroot, Ends, exec, doMv_eq h.tidy hres hroot, ← Ends]
  rw [mvOk_iff]
  cases hdres : s.resolve dpath with
  | none => simp [moveTo_iff h hres hroot hd0 hdres]
  | some dip =>
    have hinum := resolve_inum h.tidy hdres
    dsimp only
    cases htype : (s.inode dip).type with
    | dir => simp [moveInto_iff h hres hroot hs0 hdres ⟨hinum, htype⟩, Img.IsDir, hinum, htype]
    | file => simp [moveOnto_iff h hres hroot hd0 hdres htype, Img.IsDir, htype]
    | free =>
      refine iff_of_true hstill ?_
      simp [Img.IsDir, htype]
    | dev =>
      refine iff_of_true hstill ?_
      simp [Img.IsDir, htype]

/-- `mv f g`. -/
theorem moves_right_new :
    Succeeds oneFile (.mv [102] [103]) (exec (.mv [102] [103]) oneFile).2 ∧
      MovesRight oneFile [102] [103] := by
  refine ⟨⟨by decide +kernel, rfl⟩, ?_⟩
  have hres : oneFile.resolve [102] = some 2 := by decide +kernel
  have hnone : oneFile.resolve [103] = none := by decide +kernel
  have hdir : oneFile.resolve (dirName [103]) = some root := by decide +kernel
  have hspot : oneFile.spot [102] = some (root, [102]) := by decide +kernel
  apply (moves_right_iff whole_oneFile (by decide) (by decide)).mpr
  intro sip hsip _
  cases hres.symm.trans hsip
  refine ⟨fun _ d hd => ?_, fun dip hdip => ?_, fun dip hdip => ?_⟩
  · cases hdir.symm.trans hd.2.1
    refine .inr ⟨by decide +kernel, by decide, fun _ => by decide +kernel, fun spot h => ?_,
      by decide +kernel, fun spot h => ?_⟩
    · cases hspot.symm.trans h
      decide
    · cases hspot.symm.trans h
      decide +kernel
  · rw [hnone] at hdip
    cases hdip
  · rw [hnone] at hdip
    cases hdip

/-- `mv f f` is reported as a success, and `f` is gone. -/
theorem move_to_itself_lost : Whole oneFile ∧
    Succeeds oneFile (.mv [102] [102]) (exec (.mv [102] [102]) oneFile).2 ∧
    (exec (.mv [102] [102]) oneFile).2.resolve [102] = none ∧
    ¬ MovesRight oneFile [102] [102] := by
  have hmv : Succeeds oneFile (.mv [102] [102]) (exec (.mv [102] [102]) oneFile).2 :=
    ⟨by decide +kernel, rfl⟩
  have hgone : (exec (.mv [102] [102]) oneFile).2.resolve [102] = none := by decide +kernel
  refine ⟨whole_oneFile, hmv, hgone, fun hright => ?_⟩
  have hres : oneFile.resolve [102] = some 2 := by decide +kernel
  have hfile : (oneFile.inode 2).type ≠ .dir := by decide +kernel
  have hends := hright 2 hres
  rw [Ends, hmv.exec] at hends
  have hitself := Relocated.itself hends fun dip hdip => by
    cases hres.symm.trans hdip
    exact fun hdir => hfile hdir.2
  rw [hgone] at hitself
  cases hitself

end Yaos.Fs
