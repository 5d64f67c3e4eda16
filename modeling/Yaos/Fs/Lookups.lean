import Yaos.Fs.Grafts
import Yaos.Fs.Paths

/-!
# Names in a tree of directories

In a directory whose names are distinct a name stands for one entry, so what
`dlookup` finds is said by the entries (`find_iff`). A path then names the same
entry in another image as long as that one has the entries on its way
(`Carries`): that is what `do_mv` relies on, which looks up the old path again
after it has changed directories.
-/

namespace Yaos.Fs

open Yaos.Lib Relation

variable {s t : Img} {sb : Super} {l : List Dirent} {e : Dirent} {d i j k n p x rp : Nat}
  {name path : Name}

/-! ## What a lookup finds -/

theorem sameName_nil (hname : name ≠ []) : sameName name [] = false := by
  cases name with
  | nil => exact absurd rfl hname
  | cons c name => rfl

theorem take_ne_nil (hname : name ≠ []) : name.take dirsiz ≠ [] := by
  cases name with
  | nil => exact absurd rfl hname
  | cons c name => simp [dirsiz]

theorem findEntry_of_first : ∀ {l : List Dirent} {j k : Nat}, l[k]? = some e →
    sameName name e.name = true → (∀ e' ∈ l.take k, sameName name e'.name = false) →
    findEntry sb name l j = some (sb.iget e.inum, direntSize * (j + k)) := by
  intro l
  induction l with
  | nil =>
    intro j k hk
    cases hk
  | cons e₀ l ih =>
    intro j k hk hsame hbefore
    rw [findEntry]
    cases k with
    | zero =>
      cases hk
      rw [if_pos hsame]
      rfl
    | succ k =>
      rw [List.take_succ_cons, List.forall_mem_cons] at hbefore
      rw [if_neg (by rw [hbefore.1]; decide), ih hk hsame hbefore.2]
      congr 3
      omega

theorem Listed.find (h : Listed d l) (hk : l[k]? = some e) (hlive : e.inum ≠ 0) (hname : name ≠ [])
    (hsame : sameName name e.name = true) :
    findEntry sb name l 0 = some (sb.iget e.inum, direntSize * k) := by
  have hfirst : ∀ e' ∈ l.take k, sameName name e'.name = false := by
    intro e' he'
    obtain ⟨m, hm⟩ := List.mem_iff_getElem?.mp he'
    rw [List.getElem?_take] at hm
    split at hm
    next hlt =>
      by_contra hno
      have hsame' : sameName name e'.name = true := by simpa using hno
      have hlive' : e'.inum ≠ 0 := by
        intro h0
        rw [(h.dead e' (List.mem_of_getElem? hm)).mp h0, sameName_nil hname] at hsame'
        cases hsame'
      have hboth : sameName e'.name e.name = true := by
        rw [sameName, decide_eq_true_eq] at hsame hsame' ⊢
        exact hsame'.symm.trans hsame
      have heq := h.distinct m k e' e hm hk hlive' hlive hboth
      omega
    next => cases hm
  have hfound : findEntry sb name l 0 = some (sb.iget e.inum, direntSize * (0 + k)) :=
    findEntry_of_first hk hsame hfirst
  rwa [Nat.zero_add] at hfound

section Lookup

variable (hr : Rows n s.node) (hd : s.IsDir d) (hname : name ≠ [])

include hr hd hname

theorem find_iff : s.find d name = some (some i, direntSize * k) ↔
    s.sb.Inum i ∧ ∃ nm, (s.node d).ents[k]? = some ⟨i, nm⟩ ∧ sameName name nm = true := by
  constructor
  · intro hfind
    obtain ⟨hi, k', nm, hk, hsame, hoff, -⟩ := find_eq_some hfind
    obtain rfl : k = k' := by
      unfold direntSize at hoff
      omega
    exact ⟨hi, nm, hk, hsame⟩
  · rintro ⟨hi, nm, hk, hsame⟩
    have hlisted := hr.listed d (isDir_iff.mp hd)
    rw [Img.find, hlisted.find hk (Nat.ne_of_gt hi.1) hname hsame, iget_of_inum hi]

theorem inodeOf_find : inodeOf (s.find d name) = some i ↔
    s.sb.Inum i ∧ ∃ (k : Nat) (nm : Name), (s.node d).ents[k]? = some ⟨i, nm⟩ ∧
      sameName name nm = true := by
  constructor
  · intro hfound
    obtain ⟨off, hfind⟩ := inodeOf_eq_some hfound
    obtain ⟨hi, k, nm, hk, hsame, -⟩ := find_eq_some hfind
    exact ⟨hi, k, nm, hk, hsame⟩
  · rintro ⟨hi, k, nm, hk, hsame⟩
    rw [(find_iff hr hd hname).mpr ⟨hi, nm, hk, hsame⟩]
    rfl

theorem find_none (h : Tidy s) : inodeOf (s.find d name) = none ↔
    ∀ e ∈ (s.node d).ents, e.inum ≠ 0 → sameName e.name name = false := by
  constructor
  · intro hnone e he hlive
    by_contra hno
    obtain ⟨k, hk⟩ := List.mem_iff_getElem?.mp he
    have hsame : sameName name e.name = true := by
      rw [sameName_comm]
      simpa using hno
    rw [(inodeOf_find hr hd hname).mpr ⟨(h.dirOk hd).inum_of_live hk hlive, k, e.name, hk, hsame⟩] at hnone
    cases hnone
  · intro hnot
    cases hfound : inodeOf (s.find d name) with
    | none => rfl
    | some i =>
      obtain ⟨hi, k, nm, hk, hsame⟩ := (inodeOf_find hr hd hname).mp hfound
      have hdiff := hnot _ (List.mem_of_getElem? hk) (Nat.ne_of_gt hi.1)
      rw [sameName_comm] at hdiff
      rw [hdiff] at hsame
      cases hsame

end Lookup

/-! ## Room for an entry -/

/-- The directory has an entry that is not in use, or it can grow. -/
def Img.HasRoom (s : Img) (d : Nat) : Prop :=
  (∃ e ∈ (s.node d).ents, e.inum = 0) ∨ direntSize * ((s.node d).ents.length + 1) ≤ maxFileSize

instance : Decidable (s.HasRoom d) := inferInstanceAs (Decidable (_ ∨ _))

section Room

variable (h : Tidy s) (hr : Rows n s.node) (hd : s.IsDir d) (hname : name ≠ [])
  (hnone : inodeOf (s.find d name) = none)

include h hr hd hname hnone

theorem HasRoom.place (hroom : s.HasRoom d) : ∃ j, s.place d name = some j := by
  have hnot := (find_none hr hd hname h).mp hnone
  cases hidx : freeIdx name (s.node d).ents 0 with
  | none =>
    obtain ⟨e, he, hlive, hsame⟩ := freeIdx_eq_none hidx
    rw [hnot e he hlive] at hsame
    cases hsame
  | some j =>
    obtain ⟨m, hm, hle, -, hbefore⟩ := freeIdx_eq_some hidx
    rw [Nat.zero_add] at hm
    subst hm
    refine ⟨j, ?_⟩
    rw [Img.place, hidx, Option.filter_some, if_pos]
    rw [decide_eq_true_eq]
    have hsize := h.sound.mul_length hd
    have hmax := h.sound.blocks.size_le hd.1
    rcases hroom with ⟨e, he, hdead⟩ | hgrow
    · -- the free entry is not before `j`
      obtain ⟨k, hk⟩ := List.mem_iff_getElem?.mp he
      have hlt := (List.getElem?_eq_some_iff.mp hk).1
      have hjk : j ≤ k := by
        by_contra hkj
        have hmem : e ∈ (s.node d).ents.take j := by
          rw [List.mem_iff_getElem?]
          exact ⟨k, by rw [List.getElem?_take, if_pos (by omega), hk]⟩
        exact (hbefore e hmem).1 hdead
      calc direntSize * (j + 1) ≤ direntSize * (s.node d).ents.length :=
            Nat.mul_le_mul_left _ (by omega)
        _ ≤ maxFileSize := by omega
    · exact Nat.le_trans (Nat.mul_le_mul_left _ (by omega)) hgrow

/-- The place that `daddent` finds for a name that is not there. -/
theorem place_vacant (hplace : s.place d name = some j) : Vacant s.node d j (name.take dirsiz) := by
  obtain ⟨hidx, -, hle⟩ := place_eq_some hplace
  obtain ⟨m, hm, -, hdead, -⟩ := freeIdx_eq_some hidx
  rw [Nat.zero_add] at hm
  subst hm
  refine ⟨isDir_iff.mp hd, (h.dirOk hd).freeIdx_ge hidx, hle, hdead, fun e he hlive => ?_,
    take_ne_nil hname⟩
  rw [sameName_comm, sameName_take, sameName_comm]
  exact (find_none hr hd hname h).mp hnone e he hlive

/-- The name is stored as it is, up to `DIRSIZ` bytes. -/
theorem stores_of_new (hi : s.sb.Inum i) (h0 : 0 ∉ name) : Stores i name (name.take dirsiz) where
  stored := stored_eq (h.lt_word hi) h0
  ne_dot := by
    have hself := (hr.listed d (isDir_iff.mp hd)).self
    rw [sameName_comm]
    exact (find_none hr hd hname h).mp hnone _ (List.mem_of_getElem? hself) (Nat.ne_of_gt hd.1.1)

end Room

/-! ## Paths and entries -/

theorem Img.Names.holds (hn : s.Names rp path d j i) (h : Tidy s) (hrp : s.IsDir rp) :
    Holds s.node d j i := by
  obtain ⟨hd, hge, -, hi, -, nm, hnm⟩ := hn.spec h hrp
  exact ⟨isDir_iff.mp hd, hge, Nat.ne_of_gt hi.1, nm, hnm⟩

/-- The last element of the path is the name of an entry other than `.` and `..`. -/
def Proper (path : Name) : Prop :=
  baseName path ≠ [] ∧
    ¬ (sameName (baseName path) dot = true ∨ sameName (baseName path) dotdot = true)

instance : Decidable (Proper path) := inferInstanceAs (Decidable (_ ∧ _))

theorem resolve_base (hres : s.resolve path = some i) : ∃ d,
    s.spot path = some (d, (baseName path).take dirsiz) ∧
      s.at (d, (baseName path).take dirsiz) = some i := by
  obtain ⟨⟨d, name⟩, hwalk, hat⟩ := Option.bind_eq_some_iff.mp hres
  cases walk_baseName hwalk
  exact ⟨d, hwalk, hat⟩

theorem names_of_proper (hres : s.resolve path = some i) (hp : Proper path) :
    ∃ d j, s.Names root path d j i := by
  obtain ⟨d, hwalk, hat⟩ := resolve_base hres
  have hne := take_ne_nil hp.1
  rw [Img.at, if_neg hne] at hat
  obtain ⟨off, hfind⟩ := inodeOf_eq_some hat
  obtain ⟨j, -, rfl⟩ := find_lt hfind
  refine ⟨d, j, _, hwalk, hne, hfind, ?_⟩
  rw [sameName_take, sameName_take]
  exact hp.2

theorem Branches.type_dotdot {nodes : Nodes} (h : Branches nodes) (hc : (nodes d).type = .dir)
    (hdots : (nodes d).ents[1]? = some ⟨p, Fs.dotdot⟩) : (nodes p).type = .dir := by
  by_cases hroot : d = root
  · subst hroot
    cases hdots.symm.trans h.top
    exact h.rootDir
  · obtain ⟨j, hj⟩ := h.holds ⟨hroot, hc, hdots⟩
    exact hj.1

theorem proper_of_file (h : Tidy s) (hg : Grown n s.node) (hres : s.resolve path = some i)
    (hfile : (s.node i).type ≠ .dir) : Proper path := by
  obtain ⟨d, hwalk, hat⟩ := resolve_base hres
  have hd := walk_isDir _ _ _ h.isDir_root hwalk
  have hdir := isDir_iff.mp hd
  by_cases hbase : baseName path = []
  · rw [hbase] at hat
    cases hat
    exact absurd hdir hfile
  rw [Img.at, if_neg (take_ne_nil hbase), find_take] at hat
  refine ⟨hbase, fun hdots => hfile ?_⟩
  -- `.` and `..` stand for directories
  have hfound : ∀ {m p : Nat} {nm : Name}, (s.node d).ents[m]? = some ⟨p, nm⟩ → p ≠ 0 →
      sameName (baseName path) nm = true → (s.node p).type = .dir → (s.node i).type = .dir := by
    intro m p nm hm hp hsame htype
    have hinum := (h.dirOk hd).inum_of_live hm hp
    rw [(inodeOf_find hg.rows hd hbase).mpr ⟨hinum, m, nm, hm, hsame⟩] at hat
    cases hat
    exact htype
  rcases hdots with hsame | hsame
  · exact hfound (hg.rows.listed d hdir).self (Nat.ne_of_gt hd.1.1) hsame hdir
  · obtain ⟨p, hp⟩ := hg.branches.dotdot hdir
    have htype := hg.branches.type_dotdot hdir hp
    exact hfound hp (Nat.ne_of_gt (isDir_iff.mpr htype).1.1) hsame htype

theorem mem_of_mem_skipelem {elem rest : Name} (hskip : skipelem path = (elem, rest)) :
    (∀ c ∈ elem, c ∈ path) ∧ ∀ c ∈ rest, c ∈ path := by
  simp only [skipelem, Prod.mk.injEq] at hskip
  obtain ⟨rfl, rfl⟩ := hskip
  constructor
  · intro c hc
    exact (List.dropWhile_subset _) ((List.takeWhile_subset _) (List.mem_of_mem_take hc))
  · intro c hc
    exact (List.dropWhile_subset _) ((List.dropWhile_subset _) hc)

theorem mem_of_mem_walk : ∀ (n rp : Nat) (path : Name), s.walk n rp path = some (d, name) →
    ∀ c ∈ name, c ∈ path := by
  intro n
  induction n with
  | zero =>
    intro rp path hwalk
    cases hwalk
  | succ n ih =>
    intro rp path hwalk c hc
    rw [Img.walk] at hwalk
    rcases hskip : skipelem path with ⟨elem, rest⟩
    obtain ⟨helem, hrest⟩ := mem_of_mem_skipelem hskip
    rw [hskip] at hwalk
    dsimp only at hwalk
    split at hwalk
    next =>
      cases hwalk
      exact helem c hc
    next =>
      split at hwalk
      next => cases hwalk
      next ip _ =>
        split at hwalk
        next => cases hwalk
        next => exact hrest c (ih ip rest hwalk c hc)

theorem mem_of_mem_baseName {c : UInt8} (hc : c ∈ baseName path) : c ∈ path := by
  obtain ⟨dir, hsplit, -⟩ := baseName_split path
  rw [hsplit]
  exact List.mem_append_right _ hc

/-! ## Images with the same names -/

theorem walk_stop {rp : Nat} {elem rest : Name} (hskip : skipelem path = (elem, rest))
    (hmore : ¬ (elem = [] ∨ rest = []))
    (hno : ∀ ip, ¬ (inodeOf (s.find rp elem) = some ip ∧ s.IsDir ip)) : s.walk (n + 1) rp path = none := by
  rw [Img.walk, hskip]
  dsimp only
  rw [if_neg hmore]
  cases hfind : inodeOf (s.find rp elem) with
  | none => rfl
  | some ip => exact if_pos fun hdir => hno ip ⟨hfind, find_inum hfind, hdir⟩

theorem walk_congr (hsame : ∀ d ip name, s.IsDir d → name ≠ [] →
    (inodeOf (t.find d name) = some ip ∧ t.IsDir ip ↔ inodeOf (s.find d name) = some ip ∧ s.IsDir ip)) :
    ∀ (n rp : Nat) (path : Name), s.IsDir rp → t.walk n rp path = s.walk n rp path := by
  intro n
  induction n with
  | zero => exact fun _ _ _ => rfl
  | succ n ih =>
    intro rp path hrp
    rcases hskip : skipelem path with ⟨elem, rest⟩
    by_cases hmore : elem = [] ∨ rest = []
    · rw [Img.walk, Img.walk, hskip]
      dsimp only
      rw [if_pos hmore, if_pos hmore]
    have hsame := fun ip => hsame rp ip elem hrp fun hnil => hmore (.inl hnil)
    by_cases hdir : ∃ ip, inodeOf (s.find rp elem) = some ip ∧ s.IsDir ip
    · obtain ⟨ip, hs⟩ := hdir
      have ht := (hsame ip).mpr hs
      rw [Img.walk, Img.walk, hskip]
      dsimp only
      rw [if_neg hmore, if_neg hmore, hs.1, ht.1]
      dsimp only
      rw [if_neg (not_not.mpr hs.2.2), if_neg (not_not.mpr ht.2.2), ih ip rest hs.2]
    · rw [walk_stop hskip hmore fun ip ht => hdir ⟨ip, (hsame ip).mp ht⟩,
        walk_stop hskip hmore fun ip hs => hdir ⟨ip, hs⟩]

/-- The directories and their entries are the same. -/
structure Alike (s t : Img) : Prop where
  sb : t.sb = s.sb
  isDir : ∀ d, t.IsDir d ↔ s.IsDir d
  ents : ∀ d, s.IsDir d → (t.node d).ents = (s.node d).ents

theorem Alike.of_node (hsb : t.sb = s.sb) (hnode : t.node = s.node) : Alike s t where
  sb := hsb
  isDir d := by rw [isDir_iff, isDir_iff, hnode]
  ents d _ := by rw [hnode]

theorem Alike.find (h : Alike s t) (hd : s.IsDir d) : t.find d name = s.find d name := by
  rw [Img.find, Img.find, h.ents d hd, h.sb]

theorem Alike.resolve (h : Alike s t) (hs : Tidy s) (path : Name) : t.resolve path = s.resolve path := by
  have hwalk : t.spot path = s.spot path :=
    walk_congr (fun d ip name hd _ => by rw [h.find hd, h.isDir]) _ _ _ hs.isDir_root
  rw [Img.resolve, Img.resolve, hwalk]
  cases hplace : s.spot path with
  | none => rfl
  | some place =>
    obtain ⟨d, name⟩ := place
    have hd := walk_isDir _ _ _ hs.isDir_root hplace
    rw [Option.bind_some, Option.bind_some, Img.at, Img.at, h.find hd]

/-! ## The same path in another image -/

/-- `t` has the entries of `s`, but for those of `x` and those that name it. -/
structure Carries (s t : Img) (x : Nat) : Prop where
  sb : t.sb = s.sb
  dir : ∀ d, s.IsDir d → d ≠ x → t.IsDir d
  ent : ∀ (d k : Nat) (e : Dirent), s.IsDir d → d ≠ x → (s.node d).ents[k]? = some e → e.inum ≠ 0 →
    e.inum ≠ x → (t.node d).ents[k]? = some e

theorem mem_trail : ∀ (n rp : Nat) (path : Name), s.walk n rp path = some (d, name) →
    d ∈ s.trail n rp path := by
  intro n
  induction n with
  | zero =>
    intro rp path hwalk
    cases hwalk
  | succ n ih =>
    intro rp path hwalk
    rw [Img.walk] at hwalk
    rw [Img.trail]
    rcases hskip : skipelem path with ⟨elem, rest⟩
    rw [hskip] at hwalk
    dsimp only at hwalk ⊢
    split at hwalk
    next =>
      cases hwalk
      exact List.mem_cons_self
    next hmore =>
      rw [if_neg hmore]
      cases hfind : inodeOf (s.find rp elem) with
      | none =>
        rw [hfind] at hwalk
        cases hwalk
      | some ip =>
        rw [hfind] at hwalk
        dsimp only at hwalk ⊢
        split at hwalk
        next => cases hwalk
        next hdir =>
          rw [if_neg hdir]
          exact List.mem_cons_of_mem _ (ih ip rest hwalk)

theorem Carries.walk {place : Nat × Name} (hc : Carries s t x) (hs : Rows n s.node)
    (ht : Rows n t.node) {m : Nat} (hrp : s.IsDir rp) (hx : x ∉ s.trail m rp path)
    (hwalk : s.walk m rp path = some place) : t.walk m rp path = some place := by
  refine walk_stable m rp path (fun d ip name hd hip hname hfound => ?_) hwalk
  have hdir := trail_isDir m rp path hrp d hd
  have hne : ∀ y ∈ s.trail m rp path, y ≠ x := by
    rintro y hy rfl
    exact hx hy
  obtain ⟨hinum, k, nm, hk, hsame⟩ := (inodeOf_find hs hdir hname).mp hfound
  have hk' := hc.ent d k _ hdir (hne d hd) hk (Nat.ne_of_gt hinum.1) (hne ip hip)
  constructor
  · rw [inodeOf_find ht (hc.dir d hdir (hne d hd)) hname, hc.sb]
    exact ⟨hinum, k, nm, hk', hsame⟩
  · exact (hc.dir ip (trail_isDir m rp path hrp ip hip) (hne ip hip)).2

theorem Carries.names (hc : Carries s t x) (h : Tidy s) (hs : Rows n s.node) (ht : Rows n t.node)
    (hx : x ∉ s.trail (path.length + 1) root path) (hn : s.Names root path d j i)
    (hlast : (t.node d).ents[j]? = (s.node d).ents[j]?) : t.Names root path d j i := by
  obtain ⟨name, hwalk, hname, hfind, hdots⟩ := hn
  have hd := walk_isDir _ _ _ h.isDir_root hwalk
  have hdx : d ≠ x := by
    rintro rfl
    exact hx (mem_trail _ _ _ hwalk)
  refine ⟨name, hc.walk hs ht h.isDir_root hx hwalk, hname, ?_, hdots⟩
  rw [find_iff ht (hc.dir d hd hdx) hname, hlast, hc.sb]
  exact (find_iff hs hd hname).mp hfind

theorem not_mem_trail (hrp : s.IsDir rp) (hx : (s.node x).type ≠ .dir) {m : Nat} :
    x ∉ s.trail m rp path := fun hmem => hx (isDir_iff.mp (trail_isDir m rp path hrp x hmem))

theorem Vacant.carries {short : Name} (hv : Vacant s.node d j short) (hsb : t.sb = s.sb)
    (hnode : t.node = added s.node d j name i) : Carries s t 0 where
  sb := hsb
  dir c hc _ := by
    rw [isDir_iff] at hc ⊢
    rw [hnode, type_added, hc]
  ent c k e _ _ hk hlive _ := by
    rw [hnode, ents_added]
    split
    next hcd =>
      subst hcd
      have hkj : k ≠ j := by
        rintro rfl
        exact hlive (hv.dead e hk)
      rw [getElem?_setAt hv.le, if_neg hkj, hk]
    next => exact hk

theorem Holds.carries (hh : Holds s.node d j i) (hsb : t.sb = s.sb)
    (hnode : t.node = unlinked sb s.node d j i) : Carries s t i where
  sb := hsb
  dir c hc hci := by
    rw [isDir_iff] at hc ⊢
    rw [hnode, type_unlinked hci, hc]
  ent c k e _ hci hk _ hei := by
    rw [hnode, ents_unlinked hci, ents_setEnt]
    split
    next hcd =>
      subst hcd
      have hkj : k ≠ j := by
        rintro rfl
        obtain ⟨-, -, -, nm, hnm⟩ := hh
        cases hk.symm.trans hnm
        exact hei rfl
      rw [getElem?_setAt (Nat.le_of_lt hh.lt), if_neg hkj, hk]
    next => exact hk

end Yaos.Fs
