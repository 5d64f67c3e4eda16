import Yaos.Fs.Safe

/-!
# New files and directories

`icreat` takes an inode, enters it in its directory and, for a directory, puts
in `.` and `..`. The results of the three calls of `daddent` are dropped: if the
directory is full the inode is taken without being entered.
-/

namespace Yaos.Fs

open Yaos.Lib Prog Function

/-- What `create` leaves: `place` is where the entry went. -/
def created (nodes : Nodes) (place : Option Nat) (rp : Nat) (name : Name) (type : FileType)
    (ip : Nat) : Nodes :=
  let base := update nodes ip ⟨type, 0, []⟩
  let entered := place.elim base fun j => added base rp j name ip
  if type = .dir then added (added entered ip 0 dot ip) ip 1 dotdot rp else entered

/-- The blocks that `create` may need. -/
def createNeed (type : FileType) : Nat := if type = .dir then 3 else 2

variable {s t u : Img} {nodes : Nodes} {place : Option Nat} {rp ip i j d : Nat} {name path : Name}
  {type : FileType}

/-! ## The new node -/

theorem type_created :
    (created nodes place rp name type ip i).type = if i = ip then type else (nodes i).type := by
  have hbase : (update nodes ip (⟨type, 0, []⟩ : Node) i).type =
      if i = ip then type else (nodes i).type := by
    by_cases hi : i = ip
    · simp [hi]
    · simp [hi]
  have hentered : (place.elim (update nodes ip ⟨type, 0, []⟩)
      (fun j => added (update nodes ip ⟨type, 0, []⟩) rp j name ip) i).type =
      if i = ip then type else (nodes i).type := by
    cases place with
    | none => exact hbase
    | some j => exact type_added.trans hbase
  rw [created]
  split
  · rw [type_added, type_added, hentered]
  · exact hentered

theorem ents_created_of_ne (hi : i ≠ ip) : (created nodes place rp name type ip i).ents =
    if i = rp then place.elim (nodes rp).ents (fun j => setAt (nodes rp).ents j (.stored ⟨ip, name⟩))
    else (nodes i).ents := by
  have hbase : (update nodes ip (⟨type, 0, []⟩ : Node) i) = nodes i :=
    update_of_ne hi _ _
  have hentered : (place.elim (update nodes ip ⟨type, 0, []⟩)
      (fun j => added (update nodes ip ⟨type, 0, []⟩) rp j name ip) i).ents =
      if i = rp then place.elim (nodes rp).ents
        (fun j => setAt (nodes rp).ents j (.stored ⟨ip, name⟩)) else (nodes i).ents := by
    cases place with
    | none =>
      simp only [Option.elim_none, hbase]
      split
      next hr => rw [hr]
      next => rfl
    | some j =>
      simp only [Option.elim_some, ents_added, hbase]
      split
      next hr =>
        subst hr
        rw [hbase]
      next => rfl
  rw [created]
  split
  · rw [ents_added, if_neg hi, ents_added, if_neg hi, hentered]
  · exact hentered

theorem ents_created_self (hrp : rp ≠ ip) (htype : type = .dir) :
    (created nodes place rp name type ip ip).ents =
      [.stored ⟨ip, dot⟩, .stored ⟨rp, dotdot⟩] := by
  have hentered : (place.elim (update nodes ip ⟨type, 0, []⟩)
      (fun j => added (update nodes ip ⟨type, 0, []⟩) rp j name ip) ip).ents = [] := by
    cases place with
    | none => simp
    | some j => simp [ents_added, hrp.symm]
  rw [created, if_pos htype, ents_added, if_pos rfl, ents_added, if_pos rfl, hentered]
  rfl

theorem DirsOk.created {sb : Super} (h : DirsOk sb nodes) (hrp : (nodes rp).type = .dir)
    (hip : (nodes ip).type = .free) (hi : sb.Inum ip) (hr : sb.Inum rp) (h16 : sb.ninodes ≤ 2 ^ 16)
    (hplace : ∀ j, place = some j → 2 ≤ j ∧ j ≤ (nodes rp).ents.length) :
    DirsOk sb (created nodes place rp name type ip) := by
  have hne : ∀ d, (nodes d).type = .dir → d ≠ ip := by
    rintro d hd rfl
    rw [hip] at hd
    cases hd
  have hroot : ip ≠ root := (hne root h.rootDir).symm
  have hlt : ∀ {i}, sb.Inum i → i < 2 ^ 16 := fun hi => Nat.lt_of_lt_of_le hi.2 h16
  refine ⟨?_, fun d hd => ?_⟩
  · rw [type_created, if_neg hroot.symm]
    exact h.rootDir
  rw [type_created] at hd
  by_cases hdi : d = ip
  · rw [if_pos hdi] at hd
    rw [hdi, ents_created_self (hne rp hrp) hd, stored_dot (hlt hi), stored_dotdot (hlt hr)]
    refine ⟨⟨ip, hi, rfl⟩, ⟨rp, hr, rfl⟩, fun j e hj he => ?_⟩
    rw [List.getElem?_eq_none hj] at he
    cases he
  · rw [if_neg hdi] at hd
    rw [ents_created_of_ne hdi]
    split
    next hdr =>
      subst hdr
      cases place with
      | none => exact h.dirs d hd
      | some j =>
        obtain ⟨hj, hle⟩ := hplace j rfl
        refine (h.dirs d hd).setAt hj hle fun _ => ?_
        rw [inum_stored (hlt hi)]
        exact ⟨hi, hroot⟩
    next => exact h.dirs d hd

/-! ## `create` -/

theorem fillDir_spec (h : Sound s) (hip : s.IsDir ip) (hrp : s.sb.Inum rp)
    (hents : (s.node ip).ents = []) :
    Ends (do
        let _ ← daddent ip dot ip
        let _ ← daddent ip dotdot rp
        pure ip : FsM Nat) s
      (fun r t => r = ip ∧ Acts s t (added (added s.node ip 0 dot ip) ip 1 dotdot rp) ∧
        s.free ≤ t.free + 1 ∧ ∀ i, i ≠ ip → s.sb.Inum i → t.bytes i = s.bytes i)
      (fun _ _ => s.free < 1) := by
  have hplace : s.place ip dot = some 0 := by
    rw [Img.place, hents]
    decide
  have hfirst := daddent_of_some h hip hip.1 hplace
  rw [hents] at hfirst
  refine Ends.bind (hfirst.mono (fun _ _ hq => hq) fun e t (hlt : s.free + 0 < 1 ∧ _) => hlt.1) ?_
  rintro r t ⟨-, hacts, hfree, hbytes⟩
  have h16 : ip < 2 ^ 16 := Nat.lt_of_lt_of_le hip.1.2 h.blocks.owned.layout.inodes
  have hents' : (t.node ip).ents = [⟨ip, dot⟩] := by
    rw [hacts.node, ents_added, if_pos rfl, hents, stored_dot h16]
    rfl
  have hdir : t.IsDir ip := by
    rw [isDir_iff, hacts.node, type_added]
    exact isDir_iff.mp hip
  have hplace' : t.place ip dotdot = some 1 := by
    have hlive : ip ≠ 0 := Nat.ne_of_gt hip.1.1
    have hother : ¬ sameName dot dotdot = true := by decide
    rw [Img.place, hents', freeIdx, if_neg hlive, if_neg hother]
    decide
  have hsecond := daddent_of_some hacts.sound hdir (hacts.sb ▸ hrp) hplace'
  rw [hents', hacts.node] at hsecond
  -- both entries are in the first block
  have hzero : dirCost 0 = 0 := by decide
  have hone : dirCost 1 = 1 := by decide
  have htwo : dirCost 2 = 1 := by decide
  change t.free + dirCost 1 = s.free + dirCost 0 at hfree
  refine Ends.bind (hsecond.mono (fun _ _ hq => hq) fun e u hlt => ?_) ?_
  · have hlt : t.free + dirCost 1 < dirCost 2 := hlt.1
    omega
  rintro r u ⟨-, hacts', hfree', hbytes'⟩
  change u.free + dirCost 2 = t.free + dirCost 1 at hfree'
  refine ⟨rfl, hacts.trans hacts', by omega, fun i hne hi => ?_⟩
  rw [hbytes' i hne (hacts.sb ▸ hi), hbytes i hne hi]

/-- **What `create` does.** -/
theorem create_spec (h : Tidy s) (hrp : s.IsDir rp) (htype : type = .file ∨ type = .dir)
    (name : Name) :
    Ends (create rp name type) s
      (fun ip t => s.sb.Inum ip ∧ (s.node ip).type = .free ∧
        Acts s t (created s.node (s.place rp name) rp name type ip) ∧
        s.free ≤ t.free + createNeed type ∧ (type = .file → t.bytes ip = []) ∧
        ∀ i, i ≠ rp → i ≠ ip → s.sb.Inum i → t.bytes i = s.bytes i)
      (fun e t => s.free < createNeed type ∨ e = .noFreeInodes ∧ t = s ∧ ¬ s.HasInode) := by
  rw [create]
  refine Ends.bind ((ialloc_spec h.sound.blocks).mono (fun _ _ hq => hq) fun _ _ => .inr) ?_
  rintro ip t ⟨hip, hfree, hbecomes⟩
  have hne : rp ≠ ip := by
    rintro rfl
    rw [hrp.2] at hfree
    cases hfree
  have hacts := hbecomes.acts h.sound hip fun _ => Nat.dvd_zero _
  have hnode : File.node ⟨type, 0, []⟩ = ⟨type, 0, []⟩ := by
    rcases htype with rfl | rfl <;> rfl
  rw [hnode] at hacts
  have hcost : t.free = s.free := by
    have hsize := h.sound.blocks.empty ip hip (.inl hfree)
    have hold : (s.file ip).cost = 0 := by
      rw [File.cost, Img.file, length_bytes, hsize]
      rfl
    have := hbecomes.free
    rw [hold] at this
    exact this
  have hnodes : t.node rp = s.node rp := by rw [hacts.node, update_of_ne hne]
  have hrp' : t.IsDir rp := by
    rw [isDir_iff, hnodes]
    exact isDir_iff.mp hrp
  have hplace : t.place rp name = s.place rp name := by rw [Img.place, Img.place, hnodes]
  have hentry := daddent_spec hacts.sound hrp' (hacts.sb ▸ hip) name
  rw [hplace, hacts.node] at hentry
  have hneed : 2 ≤ createNeed type := by
    unfold createNeed
    split <;> omega
  refine Ends.bind (hentry.mono (fun _ _ hq => hq) fun _ _ hlt => .inl (by omega)) ?_
  rintro r u ⟨-, hacts', hfree', hbytes', -⟩
  have hempty : u.bytes ip = [] := by
    rw [hbytes' ip hne.symm (hacts.sb ▸ hip)]
    exact congrArg File.data hbecomes.self
  have hbytes : ∀ i, i ≠ rp → i ≠ ip → s.sb.Inum i → u.bytes i = s.bytes i := by
    intro i hirp hiip hi
    rw [hbytes' i hirp (hacts.sb ▸ hi)]
    exact congrArg File.data (hbecomes.other i hiip hi)
  have hfree : (s.node ip).type = .free := by rw [type_of_inum hip, hfree]
  rcases htype with rfl | rfl
  · rw [if_neg (by decide), ends_pure_bind, ends_pure]
    exact ⟨hip, hfree, hacts.trans hacts', by omega, fun _ => hempty, hbytes⟩
  · rw [if_pos rfl]
    have hip' : u.IsDir ip := by
      rw [isDir_iff, hacts'.node]
      cases s.place rp name with
      | none => simp
      | some j => simp
    have hents : (u.node ip).ents = [] := by
      rw [ents_of_dir hip', hempty]
      rfl
    have hfill := fillDir_spec hacts'.sound hip' (hacts'.sb ▸ hacts.sb ▸ hrp.1) hents
    have hthree : createNeed .dir = 3 := rfl
    refine hfill.mono ?_ fun _ _ hlt => .inl (by omega)
    rintro r' v ⟨rfl, hacts'', hfree'', hbytes''⟩
    rw [hacts'.node] at hacts''
    refine ⟨hip, hfree, hacts.trans (hacts'.trans hacts''), by omega, (by cases ·), ?_⟩
    intro i hirp hiip hi
    rw [hbytes'' i hiip (hacts'.sb ▸ hacts.sb ▸ hi), hbytes i hirp hiip hi]

/-! ## `icreat` -/

/-- Where `icreat` makes a new file: the directory and the name. -/
def Img.site (s : Img) (rp : Nat) (path : Name) : Option (Nat × Name) :=
  (s.walk (path.length + 1) rp path).filter fun x =>
    decide (x.2 ≠ [] ∧ inodeOf (s.find x.1 x.2) = none)

theorem creatAt_eq (h : Tidy s) (hrp : s.IsDir rp) (path : Name) (type : FileType) :
    creatAt rp path type s = (match s.site rp path with
      | some (d, name) => do
          let ip ← create d name type
          pure (some ip)
      | none => pure none : FsM (Option Nat)) s := by
  rw [creatAt, icreat_eq h.sound type _ _ _ hrp (Nat.lt_succ_self _), Img.site]
  cases s.walk (path.length + 1) rp path with
  | none => rfl
  | some x =>
    obtain ⟨d, name⟩ := x
    by_cases hno : name = [] ∨ inodeOf (s.find d name) ≠ none
    · have : ¬ (name ≠ [] ∧ inodeOf (s.find d name) = none) := by tauto
      simp [hno, Option.filter, this]
    · have : name ≠ [] ∧ inodeOf (s.find d name) = none := by tauto
      simp [Option.filter, this]

theorem site_isDir (hrp : s.IsDir rp) (h : s.site rp path = some (d, name)) : s.IsDir d :=
  walk_isDir _ _ _ hrp (Option.filter_eq_some_iff.mp h).1

/-- The place that `daddent` finds in a directory in order. -/
theorem Tidy.place_ge (h : Tidy s) (hd : s.IsDir d) (hplace : s.place d name = some j) :
    2 ≤ j ∧ j ≤ (s.node d).ents.length := by
  obtain ⟨hidx, -, hle⟩ := place_eq_some hplace
  exact ⟨(h.dirOk hd).freeIdx_ge hidx, hle⟩

/-- A file that `icreat` has made below `rp`: it has no bytes, and no other file
has lost any. -/
structure Made (s t : Img) (type : FileType) (rp : Nat) (path : Name) (ip : Nat) : Prop where
  inum : t.sb.Inum ip
  kind : (t.node ip).type = type
  empty : type = .file → t.bytes ip = []
  others : ∀ i, s.sb.Inum i → (s.node i).type = .file →
    (t.node i).type = .file ∧ t.bytes i = s.bytes i ∧ i ≠ ip
  was : (s.node ip).type = .free
  node : ∃ d name, s.site rp path = some (d, name) ∧
    t.node = created s.node (s.place d name) d name type ip

theorem creatAt_safe (h : Tidy s) (hrp : s.IsDir rp) (htype : type = .file ∨ type = .dir)
    (path : Name) : Safe (createNeed type) (creatAt rp path type) s fun r t =>
      ∀ ip, r = some ip → Made s t type rp path ip := by
  rw [Safe, Ends, creatAt_eq h hrp, ← Ends]
  cases hsite : s.site rp path with
  | none => exact ⟨h.kept, by omega, by simp⟩
  | some x =>
    obtain ⟨d, name⟩ := x
    have hd := site_isDir hrp hsite
    refine Ends.bind ((create_spec h hd htype name).mono (fun _ _ hq => hq) ?_) ?_
    · rintro e t (hlt | ⟨rfl, rfl, -⟩)
      · exact .inl hlt
      · exact .inr ⟨h.kept, .inl rfl⟩
    rintro ip t ⟨hip, hfree, hacts, hcost, hempty, hbytes⟩
    have hkept : Kept s t := hacts.kept (h.dirs.created (isDir_iff.mp hd) hfree hip hd.1
      h.sound.blocks.owned.layout.inodes fun j hj => h.place_ge hd hj)
    refine ⟨hkept, hcost, ?_⟩
    rintro _ ⟨⟩
    refine ⟨hkept.inum hip, by rw [hacts.node, type_created, if_pos rfl], hempty, fun i hi hfile => ?_,
      hfree, d, name, hsite, hacts.node⟩
    have hne : i ≠ ip := by
      rintro rfl
      rw [hfree] at hfile
      cases hfile
    refine ⟨by rw [hacts.node, type_created, if_neg hne, hfile], hbytes i ?_ hne hi, hne⟩
    rintro rfl
    rw [isDir_iff.mp hd] at hfile
    cases hfile

theorem creatAt_returns (h : Tidy s) (hrp : s.IsDir rp) (htype : type = .file ∨ type = .dir)
    (hsite : s.site rp path = some (d, name)) (hblocks : createNeed type ≤ s.free)
    (hinode : s.HasInode) : ∃ ip t, creatAt rp path type s = (.ok (some ip), t) := by
  have hspec := create_spec h (site_isDir hrp hsite) htype name
  obtain ⟨ip, t, heq, -⟩ := (hspec.mono (fun _ _ hq => hq) fun _ _ hstop => by
    rcases hstop with hlt | ⟨-, -, hno⟩
    · omega
    · exact hno hinode).exists_eq
  refine ⟨ip, t, ?_⟩
  rw [creatAt_eq h hrp, hsite]
  dsimp only
  rw [bind_of_eq heq]
  rfl

end Yaos.Fs
