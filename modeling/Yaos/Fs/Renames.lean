import Yaos.Fs.Commands
import Yaos.Fs.Lookups

/-!
# The tree under the commands

Each command that succeeds leaves the directories in a tree and the links
counted if its condition holds before (`Cmd.Ok`). The commands themselves check
less: `icreat` and `do_mv` drop the result of `daddent`, `do_ln` does not look
for the name in the directory that it found, and `do_mv` checks neither whether
`iunlink` took the old name away nor where the destination lies.
-/

namespace Yaos.Fs

open Yaos.Lib Prog Relation

/-- An image in order, with its directories in a tree. -/
structure Whole (s : Img) : Prop where
  tidy : Tidy s
  grown : Grown s.sb.ninodes s.node

/-! ## Conditions -/

/-- The part of the path before its last element fits the buffer of `do_mv`. -/
def DirFits (path : Name) : Prop := path.length - (baseName path).length ≤ bufSize - 1

/-- Where `do_mv` enters the source. -/
def Img.moveSite (s : Img) (spath dpath : Name) : Option (Nat × Name) :=
  match s.resolve dpath with
  | some dip =>
      if (s.inode dip).type = .dir then some (dip, baseName spath)
      else (s.resolve (dirName dpath)).map fun d => (d, baseName dpath)
  | none => (s.resolve (dirName dpath)).map fun d => (d, baseName dpath)

/-- When `sip`, at `spath`, can be moved to this name in the directory `d`. -/
structure MoveOk (s : Img) (spath : Name) (sip d : Nat) (name : Name) : Prop where
  /-- a directory is named by the last element of its path -/
  proper : s.IsDir sip → Proper spath
  /-- a directory does not go to itself or below it -/
  above : s.IsDir sip → ¬ ReflTransGen (Up s.node) d sip
  /-- there is room for a new name -/
  room : inodeOf (s.find d name) = none → s.HasRoom d
  /-- the entry that is replaced is not the one that is moved -/
  other : ∀ k ip, s.find d name = some (some ip, direntSize * k) → ¬ s.Names root spath d k ip
  /-- nor is what is replaced on the way to it -/
  away : ∀ ip, inodeOf (s.find d name) = some ip → ip ∉ s.trail (spath.length + 1) root spath

/-- What a command needs before it begins, so that the directories are a tree
when it has succeeded. Paths are C strings. -/
def Cmd.Ok (s : Img) : Cmd → Prop
  | .put path _ => 0 ∉ path ∧ ∀ d name, s.site root path = some (d, name) → s.HasRoom d
  | .mkdir path => 0 ∉ path ∧ ∀ d name, s.site root path = some (d, name) → s.HasRoom d
  | .cp spath dpath => 0 ∉ spath ∧ 0 ∉ dpath ∧
      ∀ d name, s.copySite spath dpath = some (d, name) → s.HasRoom d
  | .ln spath dpath => 0 ∉ spath ∧ 0 ∉ dpath ∧
      ∀ sip dip, s.resolve spath = some sip → s.resolve (dirName dpath) = some dip →
        (s.inode sip).nlink + 1 < 2 ^ 16 ∧ (baseName dpath ≠ [] → ∀ ip,
          inodeOf (s.find dip (baseName dpath)) = some ip → inodeOf (s.find ip (baseName spath)) = none)
  | .mv spath dpath => 0 ∉ spath ∧ 0 ∉ dpath ∧
      ((∀ dip, s.resolve dpath = some dip → (s.inode dip).type ≠ .dir) → DirFits dpath) ∧
        ∀ sip d name, s.resolve spath = some sip → s.moveSite spath dpath = some (d, name) →
          MoveOk s spath sip d name
  | _ => True

variable {s t u w : Img} {c : Cmd} {d i j k ip sip sd sj rp : Nat} {name path spath dpath : Name}
  {type : FileType}

theorem Kept.whole (hk : Kept s t) (hg : Grown s.sb.ninodes t.node) : Whole t :=
  ⟨hk.tidy, hk.sb ▸ hg⟩

theorem Whole.le_word (h : Whole s) : s.sb.ninodes ≤ 2 ^ 16 := h.tidy.sound.blocks.owned.layout.inodes

theorem Whole.not_dangling (h : Whole s) (path : Name) : ¬ s.Dangling path := by
  rintro ⟨ip, hres, hfree⟩
  rw [← type_of_inum (resolve_inum h.tidy hres)] at hfree
  obtain ⟨⟨d, name⟩, hwalk, hat⟩ := Option.bind_eq_some_iff.mp hres
  have hd := isDir_iff.mp (walk_isDir _ _ _ h.tidy.isDir_root hwalk)
  rw [Img.at] at hat
  split at hat
  · cases hat
    rw [hd] at hfree
    cases hfree
  · obtain ⟨off, hfind⟩ := inodeOf_eq_some hat
    obtain ⟨hip, k, nm, hk, -⟩ := find_eq_some hfind
    exact h.grown.rows.used d hd _ (List.mem_of_getElem? hk) (Nat.ne_of_gt hip.1) hfree

theorem Safe.done {α : Type} {m : FsM α} {Q : α → Img → Prop} {a : α} (h : Safe k m s Q)
    (heq : m s = (.ok a, t)) : Kept s t ∧ Q a t := by
  obtain ⟨hkept, -, hq⟩ := Ends.returned h heq
  exact ⟨hkept, hq⟩

/-! ## New files -/

theorem Whole.made (h : Whole s) (hmade : Made s t type rp path ip) (hrp : s.IsDir rp)
    (htype : type = .file ∨ type = .dir) (hk : Kept s t) (h0 : 0 ∉ path)
    (hroom : ∀ d name, s.site rp path = some (d, name) → s.HasRoom d) : Whole t := by
  obtain ⟨d, name, hsite, hnode⟩ := hmade.node
  obtain ⟨hwalk, hnew⟩ := Option.filter_eq_some_iff.mp hsite
  obtain ⟨hname, hnone⟩ := of_decide_eq_true hnew
  have hd := site_isDir hrp hsite
  have hip : s.sb.Inum ip := hk.sb ▸ hmade.inum
  obtain ⟨j, hplace⟩ := HasRoom.place h.tidy h.grown.rows hd hname hnone (hroom d name hsite)
  have hv := place_vacant h.tidy h.grown.rows hd hname hnone hplace
  have hst := stores_of_new h.tidy h.grown.rows hd hname hnone hip
    fun hmem => h0 (mem_of_mem_walk _ _ _ hwalk 0 hmem)
  refine hk.whole ?_
  rw [hnode, hplace]
  rcases htype with rfl | rfl
  · exact h.grown.newFile h.le_word hv hst hmade.was hip
  · exact h.grown.newDir h.le_word hv hst hmade.was hip

/-! ## Names that go -/

/-- `..` of a directory names the one that holds it. -/
theorem Whole.upward {nodes : Nodes} (h : Whole s) (hholds : Holds s.node d j i) (hi : s.IsDir i)
    (hroot : i ≠ root) (htype : (nodes i).type = .dir) (hents : (nodes i).ents = (s.node i).ents) :
    upward s.sb nodes d i = true := by
  have hup := (h.grown.branches.up (isDir_iff.mp hi) hroot hholds).1
  have hfind : inodeOf (s.find i dotdot) = some d := by
    rw [inodeOf_find h.grown.rows hi (by decide)]
    exact ⟨(isDir_iff.mpr hholds.1).1, 1, dotdot, hup.2.2, by decide⟩
  rw [Fs.upward, decide_eq_true_eq, hents]
  exact ⟨htype, hfind⟩

/-- What `do_rm`, `do_rmdir` and `do_mv` take a name from. -/
def Img.Removable (s : Img) (i : Nat) : Prop :=
  (s.node i).type ≠ .dir ∨ (s.node i).ents.countP (fun e => e.inum ≠ 0) = 2

theorem Img.Yields.removable (h : s.Yields i sip) (hi : s.sb.Inum i) : s.Removable i :=
  h.elim (fun hdir => .inr hdir.2.2) fun hfile => .inl (not_dir_of_file hi hfile.1)

theorem Whole.unlinked (h : Whole s) (hholds : Holds s.node d j i) (hroot : i ≠ root)
    (hgone : s.Removable i) : Grown s.sb.ninodes (unlinked s.sb s.node d j i) := by
  by_cases hdir : (s.node i).type = .dir
  · have hi := isDir_iff.mpr hdir
    have hempty := hgone.resolve_left (not_not.mpr hdir)
    have hdi := h.grown.branches.ne_parent hdir hroot hholds
    refine h.grown.dropDir h.le_word hdir hroot hholds ?_ ?_
    · rintro k c ⟨-, hge, hc, nm, hnm⟩
      exact hc ((h.tidy.dirOk hi).dead_of_empty hempty hge hnm)
    · refine h.upward hholds hi hroot (by rw [type_setEnt, hdir]) ?_
      rw [ents_setEnt, if_neg (Ne.symm hdi)]
  · exact h.grown.dropFile h.le_word hholds hdir

theorem Whole.removed (h : Whole s) (hrem : Removed s t path i) (hk : Kept s t)
    (hgone : s.Removable i) : Whole t := by
  obtain ⟨d, j, hn, hnode⟩ := hrem
  obtain ⟨-, -, -, -, hroot, -⟩ := hn.spec h.tidy h.tidy.isDir_root
  refine hk.whole ?_
  rw [hnode]
  exact h.unlinked (hn.holds h.tidy h.tidy.isDir_root) hroot hgone

/-! ## Names that are added -/

theorem Whole.linked (h : Whole s) (hlink : Linked s t d name sip) (hk : Kept s t)
    (hsip : s.sb.Inum sip) (hfile : (s.inode sip).type = .file) (hname : name ≠ []) (h0 : 0 ∉ name)
    (hnone : inodeOf (s.find d name) = none) (hlt : (s.inode sip).nlink + 1 < 2 ^ 16) : Whole t := by
  obtain ⟨hd, j, hplace, hnode⟩ := hlink
  have hv := place_vacant h.tidy h.grown.rows hd hname hnone hplace
  have hst := stores_of_new h.tidy h.grown.rows hd hname hnone hsip h0
  have hnlink : (s.node sip).nlink = (s.inode sip).nlink := by
    rw [node_of_inum hsip]
    rfl
  refine hk.whole ?_
  rw [hnode]
  refine h.grown.addName h.le_word hv hst ?_ (not_dir_of_file hsip hfile) (by rwa [hnlink])
  rw [type_of_inum hsip, hfile]
  decide

/-! ## Moves -/

/-- What a move into a directory without the name begins with. -/
structure Ready (s : Img) (d : Nat) (name : Name) (sip : Nat) (spath : Name) (sd sj : Nat) : Prop where
  whole : Whole s
  dir : s.IsDir d
  nonempty : name ≠ []
  zero : 0 ∉ name
  new : inodeOf (s.find d name) = none
  room : s.HasRoom d
  source : s.Names root spath sd sj sip

theorem Ready.shifted (h : Ready s d name sip spath sd sj) (hsh : Shifted s t d name sip spath) :
    ∃ j, Vacant s.node d j (name.take dirsiz) ∧ Stores sip name (name.take dirsiz) ∧
      t.node = unlinked s.sb (added s.node d j name sip) sd sj sip := by
  obtain ⟨u, hsu, hentered, -, hut, hunlinks⟩ := hsh
  have hs := h.whole.tidy
  have hrows := h.whole.grown.rows
  have hholds := h.source.holds hs hs.isDir_root
  obtain ⟨-, -, -, hsip, -, nm, hnm⟩ := h.source.spec hs hs.isDir_root
  obtain ⟨j, hplace⟩ := HasRoom.place hs hrows h.dir h.nonempty h.new h.room
  have hv := place_vacant hs hrows h.dir h.nonempty h.new hplace
  have hst := stores_of_new hs hrows h.dir h.nonempty h.new hsip h.zero
  rw [Entered, hplace, Option.elim_some] at hentered
  have hrows' : Rows s.sb.ninodes u.node := by
    rw [hentered, hst.added_eq]
    exact (hrows.enter hv (hrows.held hholds)).congr (fun _ => type_addLink) fun _ => ents_addLink
  have hcarry := hv.carries hsu.sb hentered
  have hlast := hcarry.ent sd sj _ (isDir_iff.mpr hholds.1)
    (Nat.ne_of_gt (isDir_iff.mpr hholds.1).1.1) hnm hholds.2.2.1 hholds.2.2.1
  have hsource : u.Names root spath sd sj sip :=
    hcarry.names hs hrows hrows' (not_mem_trail hs.isDir_root hrows.zero) h.source
      (hlast.trans hnm.symm)
  refine ⟨j, hv, hst, ?_⟩
  rw [hunlinks.node sd sj sip hsource, hsu.sb, hentered]

theorem Ready.moved (h : Ready s d name sip spath sd sj) (hmoved : Moved s t d name sip spath)
    (habove : s.IsDir sip → ¬ ReflTransGen (Up s.node) d sip) : Whole t := by
  have hk := hmoved.kept
  obtain ⟨v, hsh, hvt, hparent⟩ := hmoved
  have hs := h.whole.tidy
  have hholds := h.source.holds hs hs.isDir_root
  obtain ⟨j, hv, hst, hnode⟩ := h.shifted hsh
  have hsd : sd ≠ sip := by
    rintro rfl
    obtain ⟨-, -, -, -, hroot, -⟩ := h.source.spec hs hs.isDir_root
    exact h.whole.grown.branches.ne_parent hholds.1 hroot hholds rfl
  -- neither the directory nor what is moved has changed its type
  have htype : ∀ c, v.IsDir c ↔ s.IsDir c := by
    intro c
    rw [isDir_iff, isDir_iff, hnode, hst.type_moved hsd (h.whole.grown.nlink_ne_zero hholds)
      (h.whole.grown.counts.fits sip (h.whole.grown.rows.held hholds))]
  refine hk.whole ?_
  by_cases hdir : s.IsDir sip
  · obtain ⟨-, -, -, -, hroot, -⟩ := h.source.spec hs hs.isDir_root
    have hdi : d ≠ sip := by
      rintro rfl
      exact habove hdir ReflTransGen.refl
    rw [hparent.dir ((htype d).mpr h.dir) ((htype sip).mpr hdir), hnode]
    refine h.whole.grown.moveDir h.whole.le_word hv hst hholds (isDir_iff.mp hdir) hroot
      (habove hdir) (h.whole.upward hholds hdir hroot ?_ ?_)
    · rw [type_setEnt, type_added]
      exact isDir_iff.mp hdir
    · rw [ents_setEnt, if_neg (Ne.symm hsd), ents_added, if_neg (Ne.symm hdi)]
  · rw [hparent.file fun hbad => hdir ((htype sip).mp hbad), hnode]
    exact h.whole.grown.moveFile h.whole.le_word hv hst hholds fun hbad => hdir (isDir_iff.mpr hbad)

/-! ### Over an entry -/

/-- The entry `k` of `d`, for `ip`, has been cleared. -/
structure Cleared (s w : Img) (d k ip : Nat) : Prop where
  whole : Whole s
  kept : Kept s w
  holds : Holds s.node d k ip
  ne_root : ip ≠ root
  gone : s.Removable ip
  node : w.node = unlinked s.sb s.node d k ip

theorem Whole.cleared (h : Whole s) (hk : Kept s w) (hrp : s.IsDir rp)
    (hold : s.Names rp path d k ip) (hu : Unlinks s w rp path) (hgone : s.Removable ip) :
    Cleared s w d k ip := by
  obtain ⟨-, -, -, -, hroot, -⟩ := hold.spec h.tidy hrp
  exact ⟨h, hk, hold.holds h.tidy hrp, hroot, hgone, hu.node d k ip hold⟩

theorem Cleared.after (h : Cleared s w d k ip) : Whole w := by
  refine h.kept.whole ?_
  rw [h.node]
  exact h.whole.unlinked h.holds h.ne_root h.gone

theorem Cleared.rows (h : Cleared s w d k ip) : Rows s.sb.ninodes w.node := h.kept.sb ▸ h.after.grown.rows

theorem Cleared.ne (h : Cleared s w d k ip) : d ≠ ip := by
  rintro rfl
  exact h.whole.grown.branches.ne_parent h.holds.1 h.ne_root h.holds rfl

theorem Cleared.isDir (h : Cleared s w d k ip) : w.IsDir d := by
  rw [isDir_iff, h.node, type_unlinked h.ne]
  exact h.holds.1

theorem Cleared.ents (h : Cleared s w d k ip) :
    (w.node d).ents = setAt (s.node d).ents k ⟨0, []⟩ := by
  rw [h.node, ents_unlinked h.ne, ents_setEnt, if_pos rfl]

theorem Cleared.room (h : Cleared s w d k ip) : w.HasRoom d := by
  refine .inl ⟨⟨0, []⟩, ?_, rfl⟩
  rw [h.ents, mem_setAt (Nat.le_of_lt h.holds.lt)]
  exact .inl rfl

theorem Cleared.new (h : Cleared s w d k ip) (hname : name ≠ [])
    (hfind : s.find d name = some (some ip, direntSize * k)) : inodeOf (w.find d name) = none := by
  have hd := isDir_iff.mpr h.holds.1
  have hlisted := h.whole.grown.rows.listed d h.holds.1
  obtain ⟨-, nm, hnm, hsame⟩ := (find_iff h.whole.grown.rows hd hname).mp hfind
  rw [find_none h.rows h.isDir hname h.kept.tidy]
  intro e he hlive
  rw [h.ents] at he
  rcases (mem_setAt (Nat.le_of_lt h.holds.lt)).mp he with rfl | ⟨m, hmk, hm⟩
  · exact absurd rfl hlive
  · by_contra hno
    -- two entries of one name
    have hboth : sameName e.name nm = true := by
      have hsame' : sameName e.name name = true := by simpa using hno
      rw [sameName, decide_eq_true_eq] at hsame hsame' ⊢
      exact hsame'.trans hsame
    exact hmk (hlisted.distinct m k e _ hm hnm hlive h.holds.2.2.1 hboth)

theorem Cleared.source (h : Cleared s w d k ip) (hsource : s.Names root spath sd sj sip)
    (hother : ¬ s.Names root spath d k ip) (haway : ip ∉ s.trail (spath.length + 1) root spath) :
    w.Names root spath sd sj sip := by
  have hs := h.whole.tidy
  have hne : sd ≠ ip := by
    rintro rfl
    obtain ⟨nm, hwalk, -⟩ := hsource
    exact haway (mem_trail _ _ _ hwalk)
  refine (h.holds.carries h.kept.sb h.node).names hs h.whole.grown.rows h.rows haway hsource ?_
  rw [h.node, ents_unlinked hne, ents_setEnt]
  split
  next heq =>
    subst heq
    have hkj : sj ≠ k := by
      rintro rfl
      exact hother ((hsource.holds hs hs.isDir_root).unique h.holds ▸ hsource)
    rw [getElem?_setAt (Nat.le_of_lt h.holds.lt), if_neg hkj]
  next => rfl

theorem Cleared.up {a b : Nat} (h : Cleared s w d k ip) (hab : Up w.node a b) : Up s.node a b := by
  obtain ⟨hroot, hdir, hdots⟩ := hab
  rw [h.node] at hdir hdots
  have hone : (setEnt s.node d k ⟨0, []⟩ a).ents[1]? = (s.node a).ents[1]? :=
    ents_setEnt_one h.holds.2.1 (Nat.le_of_lt h.holds.lt)
  obtain ⟨htype, hents⟩ := of_unlinked (FileType.ne_free_of_dir hdir)
  rw [htype] at hdir
  rw [hents, hone] at hdots
  exact ⟨hroot, hdir, hdots⟩

theorem Cleared.above (h : Cleared s w d k ip) (hnot : ¬ ReflTransGen (Up s.node) d sip) :
    ¬ ReflTransGen (Up w.node) d sip :=
  fun hup => hnot (ReflTransGen.mono (fun _ _ => h.up) _ _ hup)

theorem Cleared.ready (h : Cleared s w d k ip) (hname : name ≠ []) (h0 : 0 ∉ name)
    (hfind : s.find d name = some (some ip, direntSize * k)) (hok : MoveOk s spath sip d name)
    (hsource : s.Names root spath sd sj sip) : Ready w d name sip spath sd sj where
  whole := h.after
  dir := h.isDir
  nonempty := hname
  zero := h0
  new := h.new hname hfind
  room := h.room
  source := h.source hsource (hok.other k ip hfind) (hok.away ip (by rw [hfind]; rfl))

/-! ### `do_mv` -/

theorem MoveOk.source (hok : MoveOk s spath sip d name) (h : Whole s)
    (hres : s.resolve spath = some sip) : Proper spath ∧ ∃ sd sj, s.Names root spath sd sj sip := by
  have hp : Proper spath := by
    by_cases hdir : s.IsDir sip
    · exact hok.proper hdir
    · exact proper_of_file h.tidy h.grown hres fun hbad => hdir (isDir_iff.mpr hbad)
  exact ⟨hp, names_of_proper hres hp⟩

theorem Whole.movedTo (h : Whole s) (hparent : s.Parent dpath d)
    (hmoved : Moved s t d (baseName dpath) sip spath) (hnew : s.resolve dpath = none)
    (hres : s.resolve spath = some sip) (h0 : 0 ∉ dpath) (hfits : DirFits dpath)
    (hok : ∀ d name, s.moveSite spath dpath = some (d, name) → MoveOk s spath sip d name) :
    Whole t := by
  obtain ⟨hbase, hd, hdir⟩ := hparent
  have hsite : s.moveSite spath dpath = some (d, baseName dpath) := by
    rw [Img.moveSite, hnew, hd]
    rfl
  have hok := hok d _ hsite
  obtain ⟨-, sd, sj, hsource⟩ := hok.source h hres
  -- the walk along `dpath` ends in `d`, so the name is not there
  obtain ⟨dir, hsplit, hsep⟩ := baseName_split dpath
  have hnone : inodeOf (s.find d (baseName dpath)) = none := by
    rw [dirName_eq hsplit hfits, resolve_sepEnd hsep] at hd
    rw [Img.resolve, walk_root hsplit hsep, hd, Option.map_some, Option.bind_some, Img.at,
      if_neg (take_ne_nil hbase), find_take] at hnew
    exact hnew
  have hready : Ready s d (baseName dpath) sip spath sd sj :=
    ⟨h, hdir, hbase, fun hmem => h0 (mem_of_mem_baseName hmem), hnone, hok.room hnone, hsource⟩
  exact hready.moved hmoved hok.above

theorem Whole.opened (h : Whole s) (hd : s.IsDir d) (hp : Proper spath)
    (hfound : inodeOf (s.find d (baseName spath)) = some ip) (hyields : s.Yields ip sip)
    (hw : Kept s w) (hu : Unlinks s w d (baseName spath)) :
    ∃ k, s.find d (baseName spath) = some (some ip, direntSize * k) ∧ Cleared s w d k ip := by
  obtain ⟨off, hfind⟩ := inodeOf_eq_some hfound
  obtain ⟨k, -, rfl⟩ := find_lt hfind
  have hold : s.Names d (baseName spath) d k ip := by
    refine ⟨_, walk_plain (baseName_plain spath) _, take_ne_nil hp.1, find_take.trans hfind, ?_⟩
    rw [sameName_take, sameName_take]
    exact hp.2
  exact ⟨k, hfind, h.cleared hw hd hold hu (hyields.removable (find_inum hfound))⟩

theorem Whole.movedInto (h : Whole s) (hopens : Opens s w sip d (baseName spath))
    (hmoved : Moved w t d (baseName spath) sip spath) (hd : s.IsDir d)
    (hres : s.resolve spath = some sip) (h0 : 0 ∉ spath) (hok : MoveOk s spath sip d (baseName spath)) :
    Whole t := by
  obtain ⟨hp, sd, sj, hsource⟩ := hok.source h hres
  have h0 : 0 ∉ baseName spath := fun hmem => h0 (mem_of_mem_baseName hmem)
  cases hopens with
  | new hnone hw =>
    subst hw
    have hready : Ready w d (baseName spath) sip spath sd sj :=
      ⟨h, hd, hp.1, h0, hnone, hok.room hnone, hsource⟩
    exact hready.moved hmoved hok.above
  | overwrite ip hfound hyields hw hu _ =>
    obtain ⟨k, hfind, hclear⟩ := h.opened hd hp hfound hyields hw hu
    have hready := hclear.ready hp.1 h0 hfind hok hsource
    refine hready.moved hmoved fun hdir => hclear.above (hok.above ?_)
    rw [isDir_iff] at hdir ⊢
    exact (hu.type sip).elim (fun hsame => hsame ▸ hdir) fun hgone => by rw [hgone] at hdir; cases hdir

theorem Whole.movedOnto (h : Whole s) (hw : Kept s w) (hu : Unlinks s w root dpath)
    (hd : w.resolve (dirName dpath) = some d) (hmoved : Moved w t d (baseName dpath) sip spath)
    (hdres : s.resolve dpath = some i) (hfile : (s.inode i).type = .file)
    (hsfile : (s.inode sip).type = .file) (hres : s.resolve spath = some sip) (h0 : 0 ∉ dpath)
    (hfits : DirFits dpath)
    (hok : ∀ d name, s.moveSite spath dpath = some (d, name) → MoveOk s spath sip d name) :
    Whole t := by
  have hs := h.tidy
  have hi := not_dir_of_file (resolve_inum hs hdres) hfile
  have hp := proper_of_file hs h.grown hdres hi
  obtain ⟨d', k, hold⟩ := names_of_proper hdres hp
  have hclear := h.cleared hw hs.isDir_root hold hu (.inl hi)
  obtain ⟨dir, hsplit, hsep⟩ := baseName_split dpath
  obtain ⟨nm, hwalk, -, hfind, -⟩ := hold
  rw [← Img.spot, walk_root hsplit hsep] at hwalk
  obtain ⟨⟨d₁, nm₁⟩, hwalk₁, heq⟩ := Option.map_eq_some_iff.mp hwalk
  cases heq
  obtain rfl := walk_sepEnd _ _ _ hsep hwalk₁
  rw [find_take] at hfind
  -- the directory is found again after its entry has gone
  have hwalk' := (hclear.holds.carries hw.sb hclear.node).walk h.grown.rows hclear.rows hs.isDir_root
    (not_mem_trail hs.isDir_root hi) hwalk₁
  rw [dirName_eq hsplit hfits, (resolve_sepEnd hsep).mpr hwalk'] at hd
  cases hd
  have hsite : s.moveSite spath dpath = some (d, baseName dpath) := by
    rw [Img.moveSite, hdres, dirName_eq hsplit hfits, (resolve_sepEnd hsep).mpr hwalk₁]
    dsimp only
    rw [if_neg (by rw [hfile]; decide)]
    rfl
  have hok := hok d _ hsite
  obtain ⟨-, sd, sj, hsource⟩ := hok.source h hres
  have hready := hclear.ready hp.1 (fun hmem => h0 (mem_of_mem_baseName hmem)) hfind hok hsource
  refine hready.moved hmoved fun hdir => ?_
  exact absurd (isDir_iff.mp hdir) (hu.not_dir (not_dir_of_file (resolve_inum hs hres) hsfile))

theorem Whole.mv (h : Whole s) (hren : Renamed s t spath dpath sip)
    (hres : s.resolve spath = some sip) (hok : (Cmd.mv spath dpath).Ok s) : Whole t := by
  obtain ⟨h0, h0', hfits, hok⟩ := hok
  obtain ⟨w, d, name, hbegins, hmoved⟩ := hren
  cases hbegins with
  | new hnone hparent hname hw =>
    subst hname hw
    have hfits := hfits fun dip hdip => by rw [hnone] at hdip; cases hdip
    exact h.movedTo hparent hmoved hnone hres h0' hfits fun d name => hok sip d name hres
  | into hdres hd hname hopens =>
    subst hname
    refine h.movedInto hopens hmoved hd hres h0 (hok sip d _ hres ?_)
    rw [Img.moveSite, hdres]
    exact if_pos hd.2
  | onto dip hdres hfile hsfile hname hw hu hd _ =>
    subst hname
    have hfits := hfits fun dip' hdip => by
      cases hdres.symm.trans hdip
      rw [hfile]
      decide
    exact h.movedOnto hw hu hd hmoved hdres hfile hsfile hres h0' hfits fun d name => hok sip d name hres

/-! ## Every command -/

theorem Whole.edited (h : Whole u) (hu : Kept s u) (hk : Kept s t) (hnode : t.node = u.node) :
    Whole t := by
  refine hk.whole ?_
  rw [hnode, ← hu.sb]
  exact h.grown

/-- Where `do_ln` enters a file it has a name for it, which is not there yet. -/
theorem linkSite_spec {dip : Nat} {dname : Name} (hs : baseName spath ≠ [])
    (hnil : dname = [] → inodeOf (s.find dip (baseName spath)) = none)
    (hnew : dname ≠ [] → ∀ ip, inodeOf (s.find dip dname) = some ip →
      inodeOf (s.find ip (baseName spath)) = none) :
    (s.linkSite dip spath dname).2 ≠ [] ∧
      ((s.linkSite dip spath dname).2 = baseName spath ∨ (s.linkSite dip spath dname).2 = dname) ∧
      inodeOf (s.find (s.linkSite dip spath dname).1 (s.linkSite dip spath dname).2) = none := by
  rw [Img.linkSite]
  split
  next hdname => exact ⟨hs, .inl rfl, hnil hdname⟩
  next hne =>
    cases hfound : inodeOf (s.find dip dname) with
    | none => exact ⟨hne, .inr rfl, hfound⟩
    | some ip => exact ⟨hs, .inl rfl, hnew hne ip hfound⟩

/-- Where `do_cp` makes a file there is one element for it. -/
theorem copySite_name (hsite : s.copySite spath dpath = some (d, name)) :
    name = baseName spath ∨ name = baseName dpath := by
  rw [Img.copySite] at hsite
  split at hsite
  next =>
    obtain ⟨_, -, heq⟩ := Option.map_eq_some_iff.mp hsite
    cases heq
    exact .inr rfl
  next =>
    cases hsite
    exact .inl rfl

theorem Whole.copied (h : Whole s) (hcopied : Copied s t spath dpath ip) (hok : (Cmd.cp spath dpath).Ok s) :
    Whole t := by
  obtain ⟨d, name, hsite, hd, hk, hmade⟩ := hcopied
  obtain ⟨hs0, hd0, hroom⟩ := hok
  have hname := copySite_name hsite
  have hplain : Plain name := by
    rcases hname with rfl | rfl
    · exact baseName_plain spath
    · exact baseName_plain dpath
  have h0 : 0 ∉ name := by
    rcases hname with rfl | rfl
    · exact fun hmem => hs0 (mem_of_mem_baseName hmem)
    · exact fun hmem => hd0 (mem_of_mem_baseName hmem)
  refine h.made hmade hd (.inl rfl) hk h0 fun d' name' hsite' => ?_
  -- one element stays in its directory
  have hwalk := (Option.filter_eq_some_iff.mp hsite').1
  rw [walk_plain hplain] at hwalk
  cases hwalk
  exact hroom d name hsite

/-- **One command** that succeeds. -/
theorem Whole.exec (h : Whole s) (hexec : exec c s = (.ok .success, t)) (hok : c.Ok s) : Whole t := by
  have hs := h.tidy
  cases c with
  | info path =>
    obtain ⟨-, rfl⟩ := (doInfo_safe hs path).done hexec
    exact h
  | ls path =>
    obtain ⟨-, rfl⟩ := (doLs_safe hs path).done hexec
    exact h
  | get path =>
    have hget : Safe 0 (exec (.get path)) s fun _ t => t = s :=
      Safe.andThen (doGet_safe hs path) fun _ _ hkept heq => Safe.pure hkept.tidy heq
    obtain ⟨-, rfl⟩ := hget.done hexec
    exact h
  | put path reads =>
    obtain ⟨hk, hq⟩ := (doPut_safe hs path reads).done hexec
    cases hq rfl with
    | old ip _ _ hnode _ => exact h.edited hs.kept hk hnode
    | new u ip _ hu hmade hnode _ =>
      exact (h.made hmade hs.isDir_root (.inl rfl) hu hok.1 hok.2).edited hu hk hnode
  | rm path =>
    obtain ⟨hk, hq⟩ := (doRm_safe hs path).done hexec
    obtain ⟨ip, hfile, hrem⟩ := hq rfl
    refine h.removed hrem hk (.inl ?_)
    obtain ⟨d, j, hn, -⟩ := hrem
    rwa [type_of_inum (resolve_inum hs hn.resolve)]
  | cp spath dpath =>
    obtain ⟨hk, hq⟩ := (doCp_safe hs spath (h.not_dangling dpath)).done hexec
    obtain ⟨sip, -, -, hdup⟩ := hq rfl
    cases hdup with
    | onto dip _ _ hnode _ _ => exact h.edited hs.kept hk hnode
    | new u ip _ hcopied hnode _ _ => exact (h.copied hcopied hok).edited hcopied.kept hk hnode
  | mv spath dpath =>
    obtain ⟨-, hq⟩ := (doMv_safe hs spath dpath).done hexec
    obtain ⟨sip, hres, -, hren⟩ := hq rfl
    exact h.mv hren hres hok
  | ln spath dpath =>
    obtain ⟨hk, hq⟩ := (doLn_safe hs spath dpath).done hexec
    obtain ⟨sip, dip, hres, hfile, hd, hlink, hnil⟩ := hq rfl
    obtain ⟨hs0, hd0, hok⟩ := hok
    obtain ⟨hlt, hnew⟩ := hok sip dip hres hd
    have hsip := resolve_inum hs hres
    have hproper := proper_of_file hs h.grown hres (not_dir_of_file hsip hfile)
    obtain ⟨hname, hbase, hnone⟩ := linkSite_spec hproper.1 hnil hnew
    refine h.linked hlink hk hsip hfile hname ?_ hnone hlt
    rcases hbase with heq | heq
    · rw [heq]
      exact fun hmem => hs0 (mem_of_mem_baseName hmem)
    · rw [heq]
      exact fun hmem => hd0 (mem_of_mem_baseName hmem)
  | mkdir path =>
    obtain ⟨hk, hq⟩ := (doMkdir_safe hs path).done hexec
    obtain ⟨ip, hmade⟩ := hq rfl
    exact h.made hmade hs.isDir_root (.inr rfl) hk hok.1 hok.2
  | rmdir path =>
    obtain ⟨hk, hq⟩ := (doRmdir_safe hs path).done hexec
    obtain ⟨ip, -, hempty, hrem⟩ := hq rfl
    exact h.removed hrem hk (.inr hempty)

end Yaos.Fs
