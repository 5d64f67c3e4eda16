import Yaos.Fs.Growth

/-!
# The tree under the operations

The tables that `icreat`, `daddent`, `iunlink` and `dmkparlink` leave have their
directories in a tree again and their links counted: a file or directory is
new, a file gets one more name, a file or an empty directory loses its name, a
file or directory is moved.
-/

namespace Yaos.Fs

open Yaos.Lib Relation Function

variable {nodes nodes' : Nodes} {e : Dirent} {d i j k c p n ip rp sd sj : Nat} {name : Name}
  {x : Node}

/-- The entry `j` of `d` can take the name. -/
structure Vacant (nodes : Nodes) (d j : Nat) (name : Name) : Prop where
  dir : (nodes d).type = .dir
  ge : 2 ≤ j
  le : j ≤ (nodes d).ents.length
  dead : ∀ e, (nodes d).ents[j]? = some e → e.inum = 0
  new : ∀ e ∈ (nodes d).ents, e.inum ≠ 0 → sameName e.name name = false
  nonempty : name ≠ []

theorem Vacant.congr (h : Vacant nodes d j name) (hrow : nodes' d = nodes d) :
    Vacant nodes' d j name :=
  ⟨by rw [hrow, h.dir], h.ge, by rw [hrow]; exact h.le, by rw [hrow]; exact h.dead,
    by rw [hrow]; exact h.new, h.nonempty⟩

theorem Vacant.not_holds (h : Vacant nodes d j name) (c : Nat) : ¬ Holds nodes d j c := by
  rintro ⟨-, -, hc, name', hname'⟩
  exact hc (h.dead _ hname')

theorem Vacant.ne_of_free (h : Vacant nodes d j name) (hip : (nodes ip).type = .free) : d ≠ ip := by
  rintro rfl
  rw [h.dir] at hip
  cases hip

theorem Vacant.ne_dot (h : Vacant nodes d j name) (hr : Rows n nodes) : name ≠ dot := by
  rintro rfl
  have hself := (hr.listed d h.dir).self
  have hpos := (hr.inside d (FileType.ne_free_of_dir h.dir)).1
  have hsame := h.new _ (List.mem_of_getElem? hself) (Nat.ne_of_gt hpos)
  cases hsame

/-! ## One entry -/

theorem Rows.enter (h : Rows n nodes) (hv : Vacant nodes d j name) (hi : (nodes i).type ≠ .free) :
    Rows n (Fs.setEnt nodes d j ⟨i, name⟩) := by
  have hpos := (h.inside i hi).1
  refine h.setEnt hv.dir (by have := hv.ge; omega) hv.le ?_ ?_ fun _ => hi
  · exact ⟨fun h0 => absurd h0 (Nat.ne_of_gt hpos), fun h0 => absurd h0 hv.nonempty⟩
  · intro _ k e' _ hk hlive
    exact hv.new e' (List.mem_of_getElem? hk) hlive

theorem links_enter (h : Rows n nodes) (hv : Vacant nodes d j name) (hc : c ≠ 0) :
    links n (setEnt nodes d j ⟨i, name⟩) c = links n nodes c + if i = c then 1 else 0 := by
  have hlt := (h.inside d (FileType.ne_free_of_dir hv.dir)).2
  have hlinks := links_setEnt (e := ⟨i, name⟩) (c := c) hlt hv.le
  have hold : hits c (nodes d).ents[j]? = 0 := by
    cases he : (nodes d).ents[j]? with
    | none => rfl
    | some e =>
      have hdead := hv.dead e he
      rw [hits, Option.elim_some, if_neg]
      intro hlink
      exact hc ((of_decide_eq_true hlink).1.symm.trans hdead)
  have hnew : hits c (some ⟨i, name⟩) = if i = c then 1 else 0 := by
    rw [hits, Option.elim_some, linksTo_of_ne (hv.ne_dot h)]
    simp only [decide_eq_true_eq]
  omega

/-- The name of an entry that holds a node is not `.`. -/
theorem Rows.holds_ne_dot (h : Rows n nodes) (hholds : Holds nodes d j c)
    (hj : (nodes d).ents[j]? = some ⟨c, name⟩) : name ≠ dot := by
  rintro rfl
  obtain ⟨hdir, hge, hc, -⟩ := hholds
  have hpos := (h.inside d (FileType.ne_free_of_dir hdir)).1
  have heq := (h.listed d hdir).distinct j 0 _ _ hj (h.listed d hdir).self hc (Nat.ne_of_gt hpos)
    (show sameName dot dot = true by decide)
  omega

theorem links_clear (h : Rows n nodes) (hholds : Holds nodes d j i) (hc : c ≠ 0) :
    links n (setEnt nodes d j ⟨0, []⟩) c + (if i = c then 1 else 0) = links n nodes c := by
  obtain ⟨hdir, hge, hi, name, hname⟩ := hholds
  have hlt := (h.inside d (FileType.ne_free_of_dir hdir)).2
  have hle := Nat.le_of_lt (List.getElem?_eq_some_iff.mp hname).1
  have hlinks := links_setEnt (e := ⟨0, []⟩) (c := c) hlt hle
  have hdot := h.holds_ne_dot ⟨hdir, hge, hi, name, hname⟩ hname
  have hold : hits c (nodes d).ents[j]? = if i = c then 1 else 0 := by
    rw [hname, hits, Option.elim_some, linksTo_of_ne hdot]
    simp only [decide_eq_true_eq]
  have hnew : hits c (some ⟨0, []⟩) = 0 := by
    rw [hits, Option.elim_some, linksTo_of_ne (by decide), if_neg]
    simpa using hc.symm
  omega

theorem links_dotdot (h : Rows n nodes) (hd : (nodes d).type = .dir)
    (hdots : (nodes d).ents[1]? = some ⟨p, dotdot⟩) :
    links n (setEnt nodes d 1 ⟨i, dotdot⟩) c + (if p = c then 1 else 0) =
      links n nodes c + if i = c then 1 else 0 := by
  have hlt := (h.inside d (FileType.ne_free_of_dir hd)).2
  have hle := Nat.le_of_lt (List.getElem?_eq_some_iff.mp hdots).1
  have hlinks := links_setEnt (e := ⟨i, dotdot⟩) (c := c) hlt hle
  have hhits : ∀ q, hits c (some ⟨q, dotdot⟩) = if q = c then 1 else 0 := by
    intro q
    rw [hits, Option.elim_some, linksTo_of_ne (by decide)]
    simp only [decide_eq_true_eq]
  rw [hdots, hhits, hhits] at hlinks
  exact hlinks

theorem Rows.links_free (h : Rows n nodes) (hi : (nodes i).type = .free) (h0 : i ≠ 0) :
    links n nodes i = 0 := by
  rw [links_eq_zero]
  intro d _ e he
  by_cases hd : (nodes d).type = .dir
  · simp [linksTo, h.not_named hi h0 hd he]
  · rw [h.plain d hd] at he
    cases he

/-- What has no links is not named, but by its own `.`. -/
theorem Rows.not_named_of_links (h : Rows n nodes) (hi : links n nodes i = 0) (h0 : i ≠ 0)
    (hd : (nodes d).type = .dir) (hne : d ≠ i) (he : e ∈ (nodes d).ents) : e.inum ≠ i := by
  rintro rfl
  have hlt := (h.inside d (FileType.ne_free_of_dir hd)).2
  have hlink := links_eq_zero.mp hi d hlt e he
  have hdot : e.name = dot := by simpa [linksTo] using hlink
  have hpos := (h.inside d (FileType.ne_free_of_dir hd)).1
  obtain ⟨k, hk⟩ := List.mem_iff_getElem?.mp he
  have hself := (h.listed d hd).self
  have hk0 := (h.listed d hd).distinct k 0 e _ hk hself h0 (Nat.ne_of_gt hpos) (by rw [hdot]; rfl)
  rw [hk0, hself] at hk
  cases hk
  exact hne rfl

/-- A table that differs in its counts only from one whose rows and branches are
known: it is enough that the counts are right up to `2 ^ 16`. -/
theorem Grown.of_mod (hr : Rows n nodes) (hb : Branches nodes) (hn : n ≤ 2 ^ 16)
    (htype : ∀ i, (nodes' i).type = (nodes i).type) (hents : ∀ i, (nodes' i).ents = (nodes i).ents)
    (hmod : ∀ c, (nodes c).type ≠ .free → (nodes' c).nlink = links n nodes c % 2 ^ 16)
    (hfile : ∀ c, (nodes c).type ≠ .free → (nodes c).type ≠ .dir →
      0 < links n nodes c ∧ links n nodes c < 2 ^ 16) : Grown n nodes' := by
  have hlt : ∀ c, (nodes c).type ≠ .free → links n nodes c < 2 ^ 16 := by
    intro c hc
    by_cases hdir : (nodes c).type = .dir
    · exact Nat.lt_of_lt_of_le (links_lt hr hb hdir) hn
    · exact (hfile c hc hdir).2
  have hcount : ∀ c, (nodes c).type ≠ .free → (nodes' c).nlink = links n nodes c := by
    intro c hc
    rw [hmod c hc, Nat.mod_eq_of_lt (hlt c hc)]
  refine ⟨hr.congr htype hents, hb.congr (fun i => by rw [htype]) fun i _ => hents i,
    fun c hc => ?_, fun c hc => ?_, fun c hc hdir => ?_⟩
  · rw [htype] at hc
    exact hcount c hc ▸ hlt c hc
  · rw [htype] at hc
    rw [hcount c hc, links_congr hents]
  · rw [htype] at hc hdir
    rw [hcount c hc]
    exact Nat.ne_of_gt (hfile c hc hdir).1

theorem Counts.file_links (h : Counts n nodes) (hc : (nodes c).type ≠ .free)
    (hdir : (nodes c).type ≠ .dir) : 0 < links n nodes c ∧ links n nodes c < 2 ^ 16 := by
  have hcount := h.count c hc
  exact ⟨hcount ▸ Nat.pos_of_ne_zero (h.linked c hc hdir), hcount ▸ h.fits c hc⟩

theorem Counts.mod (h : Counts n nodes) (hc : (nodes c).type ≠ .free) :
    (nodes c).nlink = links n nodes c % 2 ^ 16 := by
  rw [← h.count c hc, Nat.mod_eq_of_lt (h.fits c hc)]

/-! ## New files and directories -/

theorem Rows.take (h : Rows n nodes) (hip : (nodes ip).type = .free) (hin : 0 < ip ∧ ip < n)
    (hplain : x.type ≠ .dir → x.ents = []) (hlisted : x.type = .dir → Listed ip x.ents)
    (hused : x.type = .dir → ∀ e ∈ x.ents, e.inum ≠ 0 →
      e.inum = ip ∨ (e.inum ≠ ip ∧ (nodes e.inum).type ≠ .free)) :
    Rows n (update nodes ip x) :=
  h.fresh hin (fun _ hd _ _ he => h.not_named hip (Nat.ne_of_gt hin.1) hd he) hplain hlisted hused

theorem links_take (h : Rows n nodes) (hip : (nodes ip).type = .free) (hin : 0 < ip ∧ ip < n) :
    links n (update nodes ip x) c = links n nodes c + x.ents.countP (linksTo c) := by
  have hupdate : links n (update nodes ip x) c + (nodes ip).ents.countP (linksTo c) =
      links n nodes c + x.ents.countP (linksTo c) := links_update hin.2
  rw [h.plain ip (by rw [hip]; decide), List.countP_nil] at hupdate
  exact hupdate

/-- A row that is in use besides the one that is taken was in use before. -/
theorem Rows.used_before (h : Rows n nodes) (hc : c ≠ ip)
    (htype : (Fs.setEnt (update nodes ip x) rp j e c).type ≠ .free) :
    c ≠ 0 ∧ (nodes c).type ≠ .free := by
  rw [type_setEnt, update_of_ne hc] at htype
  exact ⟨Nat.ne_of_gt (h.inside c htype).1, htype⟩

/-- The name is stored as `short`, and it is not `.`. -/
structure Stores (i : Nat) (name short : Name) : Prop where
  stored : Dirent.stored ⟨i, name⟩ = ⟨i, short⟩
  ne_dot : sameName name dot = false

theorem Stores.added_eq {short : Name} (h : Stores i name short) :
    added nodes d j name i = addLink (setEnt nodes d j ⟨i, short⟩) i := by
  rw [added, if_neg (by rw [h.ne_dot]; decide), h.stored]

/-- **A new file.** -/
theorem Grown.newFile {short : Name} (h : Grown n nodes) (hn : n ≤ 2 ^ 16)
    (hv : Vacant nodes rp j short) (hst : Stores ip name short) (hip : (nodes ip).type = .free)
    (hin : 0 < ip ∧ ip < n) : Grown n (created nodes (some j) rp name .file ip) := by
  have hne := hv.ne_of_free hip
  have h0 : ip ≠ 0 := Nat.ne_of_gt hin.1
  have hbase : Rows n (update nodes ip ⟨.file, 0, []⟩) :=
    h.rows.take hip hin (fun _ => rfl) (by rintro ⟨⟩) (by rintro ⟨⟩)
  have hv' : Vacant (update nodes ip ⟨.file, 0, []⟩) rp j short :=
    hv.congr (update_of_ne hne _ _)
  have hrows := hbase.enter hv' (i := ip) (by rw [update_self]; decide)
  have hbranches : Branches (setEnt (update nodes ip ⟨.file, 0, []⟩) rp j ⟨ip, short⟩) := by
    refine Branches.setEnt (h.branches.congr (fun i => ?_) fun i hi => ?_) hv'.ge hv'.le
      (fun c hc => absurd hc (hv'.not_holds c)) (by rw [update_self]; decide)
    · by_cases hi : i = ip
      · rw [hi, update_self, hip]
        decide
      · rw [update_of_ne hi]
    · rw [update_of_ne]
      rintro rfl
      rw [hip] at hi
      cases hi
  have hlinks : ∀ c, c ≠ 0 →
      links n (setEnt (update nodes ip ⟨.file, 0, []⟩) rp j ⟨ip, short⟩) c =
        links n nodes c + if ip = c then 1 else 0 := by
    intro c hc
    rw [links_enter hbase hv' hc, links_take h.rows hip hin]
    rfl
  have htable : created nodes (some j) rp name .file ip =
      addLink (setEnt (update nodes ip ⟨.file, 0, []⟩) rp j ⟨ip, short⟩) ip := hst.added_eq
  rw [htable]
  refine Grown.of_mod hrows hbranches hn (fun _ => type_addLink) (fun _ => ents_addLink) ?_ ?_
  · intro c hc
    rw [nlink_addLink, nlink_setEnt, nlink_setEnt]
    by_cases hcip : c = ip
    · subst hcip
      rw [if_pos rfl, update_self, hlinks c h0, if_pos rfl, h.rows.links_free hip h0]
    · obtain ⟨hc0, htype⟩ := h.rows.used_before hcip hc
      rw [if_neg hcip, update_of_ne hcip, hlinks c hc0, if_neg (Ne.symm hcip), Nat.add_zero]
      exact h.counts.mod htype
  · intro c hc hdir
    by_cases hcip : c = ip
    · subst hcip
      rw [hlinks c h0, if_pos rfl, h.rows.links_free hip h0]
      decide
    · obtain ⟨hc0, htype⟩ := h.rows.used_before hcip hc
      rw [type_setEnt, update_of_ne hcip] at hdir
      rw [hlinks c hc0, if_neg (Ne.symm hcip), Nat.add_zero]
      exact h.counts.file_links htype hdir

theorem nlink_added (hname : sameName name dot = false) : (added nodes d j name i c).nlink =
    if c = i then ((nodes i).nlink + 1) % 2 ^ 16 else (nodes c).nlink := by
  rw [added, if_neg (by rw [hname]; decide), nlink_addLink, nlink_setEnt, nlink_setEnt]

theorem nlink_added_dot : (added nodes d j dot i c).nlink = (nodes c).nlink := by
  rw [added, if_pos (by decide), nlink_setEnt]

theorem nlink_created_dir (hne : rp ≠ ip) (hname : sameName name dot = false) :
    (created nodes (some j) rp name .dir ip c).nlink =
      if c = rp then ((nodes rp).nlink + 1) % 2 ^ 16 else if c = ip then 1 else (nodes c).nlink := by
  have hdots : sameName dotdot dot = false := by decide
  rw [created, if_pos rfl, Option.elim_some, nlink_added hdots, nlink_added_dot, nlink_added_dot,
    nlink_added hname, nlink_added hname, if_neg hne, update_of_ne hne, update_self]
  by_cases hc : c = ip
  · rw [if_pos hc, if_pos hc]
    rfl
  · rw [if_neg hc, if_neg hc, update_of_ne hc]

theorem listed_new (hip : ip ≠ 0) (hrp : rp ≠ 0) : Listed ip [⟨ip, dot⟩, ⟨rp, dotdot⟩] where
  self := rfl
  dead := by simp [hip, hrp, dot, dotdot]
  distinct := by
    intro j k e e' hj hk _ _ hsame
    match j, k, hj, hk with
    | 0, 0, _, _ => rfl
    | 1, 1, _, _ => rfl
    | 0, 1, hj, hk =>
      cases hj
      cases hk
      cases hsame
    | 1, 0, hj, hk =>
      cases hj
      cases hk
      cases hsame

/-- **A new directory.** -/
theorem Grown.newDir {short : Name} (h : Grown n nodes) (hn : n ≤ 2 ^ 16)
    (hv : Vacant nodes rp j short) (hst : Stores ip name short) (hip : (nodes ip).type = .free)
    (hin : 0 < ip ∧ ip < n) : Grown n (created nodes (some j) rp name .dir ip) := by
  have hne := hv.ne_of_free hip
  have h0 : ip ≠ 0 := Nat.ne_of_gt hin.1
  have hrp := h.rows.inside rp (FileType.ne_free_of_dir hv.dir)
  have hrp0 : rp ≠ 0 := Nat.ne_of_gt hrp.1
  -- the same table with its entries put in at once
  let x : Node := ⟨.dir, 0, [⟨ip, dot⟩, ⟨rp, dotdot⟩]⟩
  have hbase : Rows n (update nodes ip x) := by
    refine h.rows.take hip hin (fun hdir => absurd rfl hdir) (fun _ => listed_new h0 hrp0) ?_
    intro _ e he _
    rcases List.mem_cons.mp he with rfl | he
    · exact .inl rfl
    · rw [List.mem_singleton.mp he]
      exact .inr ⟨hne, FileType.ne_free_of_dir hv.dir⟩
  have hv' : Vacant (update nodes ip x) rp j short := hv.congr (update_of_ne hne _ _)
  have hrows := hbase.enter hv' (i := ip)
    (by rw [update_self]; exact FileType.ne_free_of_dir rfl)
  have hnone : ∀ d k, ¬ Holds nodes d k ip := by
    rintro d k ⟨hdir, -, -, name', hname'⟩
    exact h.rows.not_named hip h0 hdir (List.mem_of_getElem? hname') rfl
  have hbranches : Branches (setEnt (update nodes ip x) rp j ⟨ip, short⟩) :=
    h.branches.enter (by rw [hip]; decide) hnone hv.dir rfl rfl rfl hv.ge hv.le hv.not_holds rfl h0
  have hlinks : ∀ c, c ≠ 0 → links n (setEnt (update nodes ip x) rp j ⟨ip, short⟩) c =
      links n nodes c + (if rp = c then 1 else 0) + if ip = c then 1 else 0 := by
    intro c hc
    rw [links_enter hbase hv' hc, links_take h.rows hip hin]
    congr 2
    show [_, _].countP _ = _
    rw [List.countP_cons_of_neg (by simp [linksTo_dot]), List.countP_cons, List.countP_nil,
      linksTo_of_ne (by decide)]
    simp
  have h16 : ∀ i < n, i < 2 ^ 16 := fun i hi => Nat.lt_of_lt_of_le hi hn
  refine Grown.of_mod hrows hbranches hn (fun i => ?_) (fun i => ?_) (fun c hc => ?_) fun c hc hdir => ?_
  · rw [type_created, type_setEnt]
    by_cases hi : i = ip
    · rw [if_pos hi, hi, update_self]
    · rw [if_neg hi, update_of_ne hi]
  · by_cases hi : i = ip
    · subst hi
      rw [ents_created_self hne rfl, ents_setEnt, if_neg hne.symm, update_self,
        stored_dot (h16 _ hin.2), stored_dotdot (h16 _ hrp.2)]
    · rw [ents_created_of_ne hi, ents_setEnt, update_of_ne hi, update_of_ne hne,
        Option.elim_some, hst.stored]
  · rw [nlink_created_dir hne hst.ne_dot]
    by_cases hcip : c = ip
    · subst hcip
      rw [if_neg hne.symm, if_pos rfl, hlinks c h0, if_neg hne, if_pos rfl, h.rows.links_free hip h0]
      rfl
    · obtain ⟨hc0, htype⟩ := h.rows.used_before hcip hc
      rw [if_neg hcip, hlinks c hc0, if_neg (Ne.symm hcip)]
      have hmod := h.counts.mod htype
      by_cases hcrp : c = rp
      · subst hcrp
        rw [if_pos rfl, if_pos rfl, hmod]
        omega
      · rw [if_neg hcrp, if_neg (Ne.symm hcrp)]
        exact hmod
  · have hcip : c ≠ ip := by
      rintro rfl
      rw [type_setEnt, update_self] at hdir
      exact hdir rfl
    obtain ⟨hc0, htype⟩ := h.rows.used_before hcip hc
    rw [type_setEnt, update_of_ne hcip] at hdir
    have hcrp : rp ≠ c := by
      rintro rfl
      exact hdir hv.dir
    rw [hlinks c hc0, if_neg hcrp, if_neg (Ne.symm hcip)]
    exact h.counts.file_links htype hdir

/-! ## One more name -/

/-- **A file gets another name.** -/
theorem Grown.addName {short : Name} (h : Grown n nodes) (hn : n ≤ 2 ^ 16)
    (hv : Vacant nodes d j short) (hst : Stores i name short) (hi : (nodes i).type ≠ .free)
    (hfile : (nodes i).type ≠ .dir) (hlt : (nodes i).nlink + 1 < 2 ^ 16) :
    Grown n (added nodes d j name i) := by
  have hrows := h.rows.enter hv hi
  have hbranches : Branches (setEnt nodes d j ⟨i, short⟩) :=
    h.branches.setEnt hv.ge hv.le (fun c hc => absurd hc (hv.not_holds c)) hfile
  have hlinks : ∀ c, (nodes c).type ≠ .free → links n (setEnt nodes d j ⟨i, short⟩) c =
      links n nodes c + if i = c then 1 else 0 :=
    fun c hc => links_enter h.rows hv (Nat.ne_of_gt (h.rows.inside c hc).1)
  rw [hst.added_eq]
  refine Grown.of_mod hrows hbranches hn (fun _ => type_addLink) (fun _ => ents_addLink) ?_ ?_
  · intro c hc
    rw [type_setEnt] at hc
    have hcount := h.counts.count c hc
    rw [nlink_addLink, nlink_setEnt, nlink_setEnt, hlinks c hc, ← hcount]
    by_cases hci : c = i
    · rw [if_pos hci, if_pos hci.symm, hci]
    · rw [if_neg hci, if_neg (Ne.symm hci), Nat.add_zero, Nat.mod_eq_of_lt (h.counts.fits c hc)]
  · intro c hc hdir
    rw [type_setEnt] at hc hdir
    obtain ⟨hpos, hfits⟩ := h.counts.file_links hc hdir
    have hcount := h.counts.count c hc
    rw [hlinks c hc]
    by_cases hci : i = c
    · subst hci
      rw [if_pos rfl]
      omega
    · rw [if_neg hci]
      exact ⟨hpos, hfits⟩

/-! ## One name less -/

theorem reap_of_zero (h : (nodes i).nlink = 0) : reap nodes i = update nodes i .gone :=
  if_pos h

theorem reap_of_ne_zero (h : (nodes i).nlink ≠ 0) : reap nodes i = nodes := if_neg h

theorem Rows.held (h : Rows n nodes) (hholds : Holds nodes d j i) : (nodes i).type ≠ .free := by
  obtain ⟨hdir, -, h0, name, hname⟩ := hholds
  exact h.used d hdir _ (List.mem_of_getElem? hname) h0

theorem Rows.zero (h : Rows n nodes) : (nodes 0).type ≠ .dir := fun hdir =>
  absurd (h.inside 0 (FileType.ne_free_of_dir hdir)).1 (Nat.lt_irrefl 0)

theorem Rows.leave (h : Rows n nodes) (hin : 0 < i ∧ i < n) (hlinks : links n nodes i = 0) :
    Rows n (update nodes i .gone) :=
  h.fresh hin (fun _ hd hne _ he => h.not_named_of_links hlinks (Nat.ne_of_gt hin.1) hd hne he)
    (fun _ => rfl) (by rintro ⟨⟩) (by rintro ⟨⟩)

theorem in_use_of_leave (hc : (update nodes i Node.gone c).type ≠ .free) :
    c ≠ i ∧ (nodes c).type ≠ .free := by
  have hci : c ≠ i := by
    rintro rfl
    rw [update_self] at hc
    exact hc rfl
  rw [update_of_ne hci] at hc
  exact ⟨hci, hc⟩

theorem links_leave (nodes : Nodes) (hi : i < n) : links n (update nodes i .gone) c +
    (nodes i).ents.countP (linksTo c) = links n nodes c := links_update hi

/-- A table that is without the node `i`, apart from its counts. -/
theorem Grown.of_leave (hr : Rows n nodes) (hin : 0 < i ∧ i < n) (hlinks : links n nodes i = 0)
    (hb : Branches (update nodes i .gone)) (hn : n ≤ 2 ^ 16)
    (htype : ∀ c, (nodes' c).type = (nodes c).type) (hents : ∀ c, (nodes' c).ents = (nodes c).ents)
    (hmod : ∀ c, c ≠ i → (nodes c).type ≠ .free →
      (nodes' c).nlink = links n (update nodes i .gone) c % 2 ^ 16)
    (hfile : ∀ c, c ≠ i → (nodes c).type ≠ .free → (nodes c).type ≠ .dir →
      0 < links n (update nodes i .gone) c ∧
        links n (update nodes i .gone) c < 2 ^ 16) :
    Grown n (update nodes' i .gone) := by
  refine Grown.of_mod (hr.leave hin hlinks) hb hn (fun c => ?_) (fun c => ?_) (fun c hc => ?_)
    fun c hc hdir => ?_
  · by_cases hci : c = i
    · rw [hci, update_self, update_self]
    · rw [update_of_ne hci, update_of_ne hci, htype]
  · by_cases hci : c = i
    · rw [hci, update_self, update_self]
    · rw [update_of_ne hci, update_of_ne hci, hents]
  · obtain ⟨hci, hc⟩ := in_use_of_leave hc
    rw [update_of_ne hci, hmod c hci hc]
  · obtain ⟨hci, hc⟩ := in_use_of_leave hc
    rw [update_of_ne hci] at hdir
    exact hfile c hci hc hdir

theorem not_upward_of_file {sb : Super} (hfile : (nodes i).type ≠ .dir) :
    upward sb (setEnt nodes d j ⟨0, []⟩) d i = false := by
  rw [upward, decide_eq_false_iff_not, type_setEnt]
  exact fun hbad => hfile hbad.1

theorem unlinked_of_file {sb : Super} (hfile : (nodes i).type ≠ .dir) :
    unlinked sb nodes d j i = reap (subLink (setEnt nodes d j ⟨0, []⟩) i) i := by
  rw [unlinked, not_upward_of_file hfile, dropped]
  rfl

theorem Rows.links_cleared (h : Rows n nodes) (hholds : Holds nodes d j i) (hc : (nodes c).type ≠ .free) :
    links n (Fs.setEnt nodes d j ⟨0, []⟩) c + (if i = c then 1 else 0) = links n nodes c :=
  links_clear h hholds (Nat.ne_of_gt (h.inside c hc).1)

theorem Branches.leave_file (h : Branches nodes) (hfile : (nodes i).type ≠ .dir) :
    Branches (update nodes i .gone) := by
  have hgone : Node.gone.type ≠ .dir := by decide
  refine h.congr (fun c => ?_) fun c hc => ?_
  · by_cases hci : c = i
    · subst hci
      rw [update_self]
      exact ⟨fun hbad => absurd hbad hgone, fun hbad => absurd hbad hfile⟩
    · rw [update_of_ne hci]
  · rw [update_of_ne]
    rintro rfl
    exact hfile hc

theorem Grown.branches_cleared (h : Grown n nodes) (hholds : Holds nodes d j i)
    (hfile : (nodes i).type ≠ .dir) : Branches (setEnt nodes d j ⟨0, []⟩) := by
  refine h.branches.setEnt hholds.2.1 (Nat.le_of_lt hholds.lt) (fun c hc => ?_) h.rows.zero
  rw [hc.unique hholds]
  exact hfile

theorem Grown.dropLast (h : Grown n nodes) (hn : n ≤ 2 ^ 16) (hholds : Holds nodes d j i)
    (hfile : (nodes i).type ≠ .dir) (hlast : (nodes i).nlink = 1) :
    Grown n (update (subLink (setEnt nodes d j ⟨0, []⟩) i) i .gone) := by
  have hi := h.rows.held hholds
  have hin := h.rows.inside i hi
  have hge := hholds.2.1
  have hrows := h.rows.clear hholds.1 (by omega) (Nat.le_of_lt hholds.lt)
  have hfile' : (setEnt nodes d j ⟨0, []⟩ i).type ≠ .dir := by rwa [type_setEnt]
  have hzero : links n (setEnt nodes d j ⟨0, []⟩) i = 0 := by
    have hself := h.rows.links_cleared hholds hi
    rw [if_pos rfl, ← h.counts.count i hi] at hself
    omega
  have hlinks : ∀ c, c ≠ i → (nodes c).type ≠ .free →
      links n (update (setEnt nodes d j ⟨0, []⟩) i .gone) c = links n nodes c := by
    intro c hci hc
    have hc' := h.rows.links_cleared hholds hc
    rw [if_neg (Ne.symm hci), Nat.add_zero] at hc'
    have hleave := links_leave (c := c) (setEnt nodes d j ⟨0, []⟩) hin.2
    rw [hrows.plain i hfile', hc'] at hleave
    exact hleave
  refine Grown.of_leave hrows hin hzero ((h.branches_cleared hholds hfile).leave_file hfile') hn
    (fun _ => type_subLink) (fun _ => ents_subLink) (fun c hci hc => ?_) fun c hci hc hdir => ?_
  · rw [type_setEnt] at hc
    rw [nlink_subLink, if_neg hci, nlink_setEnt, hlinks c hci hc]
    exact h.counts.mod hc
  · rw [type_setEnt] at hc hdir
    rw [hlinks c hci hc]
    exact h.counts.file_links hc hdir

theorem Grown.dropOne (h : Grown n nodes) (hn : n ≤ 2 ^ 16) (hholds : Holds nodes d j i)
    (hfile : (nodes i).type ≠ .dir) (hmore : (nodes i).nlink ≠ 1) :
    Grown n (subLink (setEnt nodes d j ⟨0, []⟩) i) := by
  have hi := h.rows.held hholds
  have hge := hholds.2.1
  have hrows := h.rows.clear hholds.1 (by omega) (Nat.le_of_lt hholds.lt)
  refine Grown.of_mod hrows (h.branches_cleared hholds hfile) hn (fun _ => type_subLink)
    (fun _ => ents_subLink) (fun c hc => ?_) fun c hc hdir => ?_
  · rw [type_setEnt] at hc
    have hc' := h.rows.links_cleared hholds hc
    rw [← h.counts.count c hc] at hc'
    have hcfits := h.counts.fits c hc
    rw [nlink_subLink, nlink_setEnt, nlink_setEnt]
    by_cases hci : c = i
    · subst hci
      rw [if_pos rfl] at hc' ⊢
      omega
    · rw [if_neg hci]
      rw [if_neg (Ne.symm hci)] at hc'
      omega
  · rw [type_setEnt] at hc hdir
    obtain ⟨hpos, hcfits⟩ := h.counts.file_links hc hdir
    have hc' := h.rows.links_cleared hholds hc
    have hcount := h.counts.count c hc
    by_cases hci : i = c
    · subst hci
      rw [if_pos rfl] at hc'
      omega
    · rw [if_neg hci] at hc'
      omega

/-- **A file loses a name**, and goes with the last one. -/
theorem Grown.dropFile {sb : Super} (h : Grown n nodes) (hn : n ≤ 2 ^ 16)
    (hholds : Holds nodes d j i) (hfile : (nodes i).type ≠ .dir) :
    Grown n (unlinked sb nodes d j i) := by
  have hi := h.rows.held hholds
  have hfits := h.counts.fits i hi
  have hlinked := h.counts.linked i hi hfile
  have hnlink : (subLink (setEnt nodes d j ⟨0, []⟩) i i).nlink =
      ((nodes i).nlink + (2 ^ 16 - 1)) % 2 ^ 16 := by
    rw [nlink_subLink, if_pos rfl, nlink_setEnt]
  rw [unlinked_of_file hfile]
  by_cases hlast : (nodes i).nlink = 1
  · rw [reap_of_zero (by rw [hnlink, hlast]; rfl)]
    exact h.dropLast hn hholds hfile hlast
  · rw [reap_of_ne_zero (by rw [hnlink]; omega)]
    exact h.dropOne hn hholds hfile hlast

theorem Grown.links_empty (h : Grown n nodes) (hi : (nodes i).type = .dir) (hroot : i ≠ root)
    (hholds : Holds nodes d j i) (hempty : ∀ k c, ¬ Holds nodes i k c) :
    links n (setEnt nodes d j ⟨0, []⟩) i = 0 := by
  have hle := Nat.le_of_lt hholds.lt
  have hge := hholds.2.1
  have h0 := hholds.2.2.1
  have hrows := h.rows.clear hholds.1 (by omega) hle
  rw [links_eq_zero]
  intro y _ e he
  by_cases hy : (nodes y).type = .dir
  · obtain ⟨p, hp⟩ := h.branches.dotdot hy
    have hp' : (setEnt nodes d j ⟨0, []⟩ y).ents[1]? = some ⟨p, dotdot⟩ := by
      rw [ents_setEnt_one hge hle, hp]
    obtain ⟨m, heq, hnone, -⟩ := hrows.countP_row (by rw [type_setEnt, hy]) h0 hp'
    -- no directory has it as its parent
    have hpi : p ≠ i := by
      rintro rfl
      by_cases hyroot : y = root
      · subst hyroot
        cases hp.symm.trans h.branches.top
        exact hroot rfl
      · obtain ⟨k, hk⟩ := h.branches.holds ⟨hyroot, hy, hp⟩
        exact hempty k y hk
    have hm : m = 0 := by
      apply hnone
      intro k hk
      rw [holds_setEnt hle] at hk
      split at hk
      next => exact h0 hk.2.2.2.symm
      next hne => exact hne ((h.branches.up hi hroot hholds).2 y k hk)
    rw [hm, if_neg hpi] at heq
    simpa using List.countP_eq_zero.mp heq e he
  · rw [hrows.plain y (by rw [type_setEnt]; exact hy)] at he
    cases he

/-- **An empty directory goes.** -/
theorem Grown.dropDir {sb : Super} (h : Grown n nodes) (hn : n ≤ 2 ^ 16)
    (hi : (nodes i).type = .dir) (hroot : i ≠ root) (hholds : Holds nodes d j i)
    (hempty : ∀ k c, ¬ Holds nodes i k c)
    (hup : upward sb (setEnt nodes d j ⟨0, []⟩) d i = true) :
    Grown n (unlinked sb nodes d j i) := by
  have huse := FileType.ne_free_of_dir hi
  have hin := h.rows.inside i huse
  have hle := Nat.le_of_lt hholds.lt
  have hge := hholds.2.1
  have hdi : d ≠ i := h.branches.ne_parent hi hroot hholds
  have hrows := h.rows.clear hholds.1 (by omega) hle
  have hzero := h.links_empty hi hroot hholds hempty
  have hlinks : ∀ c, (nodes c).type ≠ .free → _ := fun c hc => h.rows.links_cleared hholds hc
  have hone : (nodes i).nlink = 1 := by
    rw [h.counts.count i huse, ← hlinks i huse, hzero, if_pos rfl]
  -- its `..` goes with it
  have hparent : (setEnt nodes d j ⟨0, []⟩ i).ents[1]? = some ⟨d, dotdot⟩ := by
    rw [ents_setEnt_one hge hle]
    exact (h.branches.up hi hroot hholds).1.2.2
  have hleave : ∀ c, c ≠ i → (nodes c).type ≠ .free →
      links n (update (setEnt nodes d j ⟨0, []⟩) i .gone) c +
        (if d = c then 1 else 0) = links n nodes c := by
    intro c hci hc
    have hc0 := Nat.ne_of_gt (h.rows.inside c hc).1
    obtain ⟨m, heq, hnone, -⟩ := hrows.countP_row (by rw [type_setEnt, hi]) hc0 hparent
    have hm : m = 0 := by
      apply hnone
      intro k hk
      rw [holds_setEnt hle, if_neg (by simp [Ne.symm hdi])] at hk
      exact hempty k c hk
    have hc' := hlinks c hc
    rw [if_neg (Ne.symm hci), Nat.add_zero, ← links_leave _ hin.2, heq, hm] at hc'
    exact hc'
  rw [unlinked, hup, dropped, if_pos rfl, reap_of_zero]
  · refine Grown.of_leave hrows hin hzero (h.branches.leave hi hroot hholds hempty) hn
      (fun c => by rw [type_subLink, type_subLink]) (fun c => by rw [ents_subLink, ents_subLink])
      (fun c hci hc => ?_) fun c hci hc hdir => ?_
    · rw [type_setEnt] at hc
      have hc' := hleave c hci hc
      rw [← h.counts.count c hc] at hc'
      have hfits := h.counts.fits c hc
      rw [nlink_subLink, if_neg hci, nlink_subLink, nlink_setEnt, nlink_setEnt]
      by_cases hcd : c = d
      · subst hcd
        rw [if_pos rfl] at hc' ⊢
        omega
      · rw [if_neg hcd]
        rw [if_neg (Ne.symm hcd)] at hc'
        omega
    · rw [type_setEnt] at hc hdir
      have hc' := hleave c hci hc
      have hdc : d ≠ c := by
        rintro rfl
        exact hdir hholds.1
      rw [if_neg hdc, Nat.add_zero] at hc'
      rw [hc']
      exact h.counts.file_links hc hdir
  · rw [nlink_subLink, if_pos rfl, nlink_subLink, if_neg (Ne.symm hdi), nlink_setEnt, hone]
    omega

/-! ## Moving -/

/-- The table in which `i` has been entered at `j` of `d` and its entry `sj` of
`sd` cleared. -/
def relinked (nodes : Nodes) (d j : Nat) (short : Name) (sd sj i : Nat) : Nodes :=
  setEnt (setEnt nodes d j ⟨i, short⟩) sd sj ⟨0, []⟩

theorem holds_entered {short : Name} (hv : Vacant nodes d j short) (hholds : Holds nodes sd sj i) :
    Holds (setEnt nodes d j ⟨i, short⟩) sd sj i := by
  rw [holds_setEnt hv.le]
  split
  next heq =>
    obtain ⟨rfl, rfl⟩ := heq
    exact absurd hholds (hv.not_holds i)
  next => exact hholds

section Relinked

variable {short : Name} (h : Rows n nodes) (hv : Vacant nodes d j short)
  (hholds : Holds nodes sd sj i)

include h hv hholds

theorem Rows.relinked : Rows n (relinked nodes d j short sd sj i) := by
  have hentered := holds_entered hv hholds
  have hge := hentered.2.1
  exact (h.enter hv (h.held hholds)).clear hentered.1 (by omega) (Nat.le_of_lt hentered.lt)

theorem links_relinked (hc : c ≠ 0) : links n (Fs.relinked nodes d j short sd sj i) c = links n nodes c := by
  have hclear := links_clear (h.enter hv (h.held hholds)) (holds_entered hv hholds) hc
  rw [links_enter h hv hc] at hclear
  rw [Fs.relinked]
  omega

end Relinked

theorem type_relinked {short : Name} : (relinked nodes d j short sd sj i c).type = (nodes c).type := by
  rw [relinked, type_setEnt, type_setEnt]

/-- What `daddent` and `iunlink` leave together: the node keeps its links. -/
theorem Stores.unlinked_added {sb : Super} {short : Name} (hst : Stores i name short) (hne : sd ≠ i)
    (h0 : (nodes i).nlink ≠ 0) (hlt : (nodes i).nlink < 2 ^ 16) :
    unlinked sb (added nodes d j name i) sd sj i =
      subLink (if upward sb (setEnt (added nodes d j name i) sd sj ⟨0, []⟩) sd i then
        subLink (setEnt (addLink (setEnt nodes d j ⟨i, short⟩) i) sd sj ⟨0, []⟩) sd
        else setEnt (addLink (setEnt nodes d j ⟨i, short⟩) i) sd sj ⟨0, []⟩) i := by
  rw [unlinked, dropped, reap_of_ne_zero]
  · rw [hst.added_eq]
  · have hback : (((nodes i).nlink + 1) % 2 ^ 16 + (2 ^ 16 - 1)) % 2 ^ 16 = (nodes i).nlink := by omega
    rw [nlink_subLink, if_pos rfl, hst.added_eq]
    split
    next =>
      rw [nlink_subLink, if_neg (Ne.symm hne), nlink_setEnt, nlink_addLink, if_pos rfl, nlink_setEnt, hback]
      exact h0
    next =>
      rw [nlink_setEnt, nlink_addLink, if_pos rfl, nlink_setEnt, hback]
      exact h0

theorem Stores.type_moved {sb : Super} {short : Name} (hst : Stores i name short) (hne : sd ≠ i)
    (h0 : (nodes i).nlink ≠ 0) (hlt : (nodes i).nlink < 2 ^ 16) :
    (unlinked sb (added nodes d j name i) sd sj i c).type = (nodes c).type := by
  rw [hst.unlinked_added hne h0 hlt, type_subLink]
  split
  · rw [type_subLink, type_setEnt, type_addLink, type_setEnt]
  · rw [type_setEnt, type_addLink, type_setEnt]

theorem ents_relinked {short : Name} :
    (setEnt (addLink (setEnt nodes d j ⟨i, short⟩) i) sd sj ⟨0, []⟩ c).ents =
      (relinked nodes d j short sd sj i c).ents := by
  rw [relinked, ents_setEnt, ents_setEnt, ents_addLink, ents_addLink]

/-- **A file moves.** -/
theorem Grown.moveFile {sb : Super} {short : Name} (h : Grown n nodes) (hn : n ≤ 2 ^ 16)
    (hv : Vacant nodes d j short) (hst : Stores i name short) (hholds : Holds nodes sd sj i)
    (hfile : (nodes i).type ≠ .dir) : Grown n (unlinked sb (added nodes d j name i) sd sj i) := by
  have hi := h.rows.held hholds
  have hfits := h.counts.fits i hi
  have hlinked := h.counts.linked i hi hfile
  have hentered := holds_entered hv hholds
  have hbranches : Branches (relinked nodes d j short sd sj i) := by
    have hfirst : Branches (setEnt nodes d j ⟨i, short⟩) :=
      h.branches.setEnt hv.ge hv.le (fun c hc => absurd hc (hv.not_holds c)) hfile
    refine hfirst.setEnt hentered.2.1 (Nat.le_of_lt hentered.lt) (fun c hc => ?_) ?_
    · rw [hc.unique hentered, type_setEnt]
      exact hfile
    · rw [type_setEnt]
      exact h.rows.zero
  have hback : (((nodes i).nlink + 1) % 2 ^ 16 + (2 ^ 16 - 1)) % 2 ^ 16 = (nodes i).nlink := by omega
  have hsdi : sd ≠ i := by
    rintro rfl
    exact hfile hholds.1
  rw [hst.unlinked_added hsdi hlinked hfits, not_upward_of_file (by rw [type_added]; exact hfile),
    if_neg Bool.false_ne_true]
  refine Grown.of_mod (h.rows.relinked hv hholds) hbranches hn (fun c => ?_) (fun c => ?_)
    (fun c hc => ?_) fun c hc hdir => ?_
  · rw [type_subLink, type_setEnt, type_addLink, type_setEnt, type_relinked]
  · rw [ents_subLink, ents_relinked]
  · rw [type_relinked] at hc
    rw [links_relinked h.rows hv hholds (Nat.ne_of_gt (h.rows.inside c hc).1), ← h.counts.mod hc,
      nlink_subLink]
    by_cases hci : c = i
    · subst hci
      rw [if_pos rfl, nlink_setEnt, nlink_addLink, if_pos rfl, nlink_setEnt, hback]
    · rw [if_neg hci, nlink_setEnt, nlink_addLink, if_neg hci, nlink_setEnt]
  · rw [type_relinked] at hc hdir
    rw [links_relinked h.rows hv hholds (Nat.ne_of_gt (h.rows.inside c hc).1)]
    exact h.counts.file_links hc hdir

theorem Grown.nlink_ne_zero (h : Grown n nodes) (hholds : Holds nodes d j i) : (nodes i).nlink ≠ 0 := by
  have hclear := links_clear (c := i) h.rows hholds hholds.2.2.1
  rw [if_pos rfl, ← h.counts.count i (h.rows.held hholds)] at hclear
  omega

theorem Rows.setDotdot (h : Rows n nodes) (hi : (nodes i).type = .dir)
    (hdots : (nodes i).ents[1]? = some ⟨p, Fs.dotdot⟩) (hp : p ≠ 0) (hd : (nodes d).type = .dir) :
    Rows n (Fs.setEnt nodes i 1 ⟨d, Fs.dotdot⟩) := by
  have hdpos := (h.inside d (FileType.ne_free_of_dir hd)).1
  refine h.setEnt hi (Nat.le_refl 1) (Nat.le_of_lt (List.getElem?_eq_some_iff.mp hdots).1) ?_ ?_ ?_
  · exact ⟨fun h0 => absurd h0 (Nat.ne_of_gt hdpos), fun h0 => by cases h0⟩
  · intro _ k e hk he hlive
    by_contra hsame
    exact hk ((h.listed i hi).distinct k 1 e _ he hdots hlive hp (by simpa using hsame))
  · exact fun _ => FileType.ne_free_of_dir hd

/-- The counts when a directory has moved: the old parent has one link less, the
new one one more. -/
theorem nlink_moved {short : Name} {e : Dirent} (hsdi : sd ≠ i)
    (hi : (nodes i).nlink < 2 ^ 16) (hc : (nodes c).nlink < 2 ^ 16) :
    (addLink (setEnt (subLink (subLink (setEnt (addLink (setEnt nodes d j ⟨i, short⟩) i)
        sd sj ⟨0, []⟩) sd) i) i 1 e) d c).nlink =
      ((nodes c).nlink + (if d = c then 1 else 0) + if sd = c then 2 ^ 16 - 1 else 0) % 2 ^ 16 := by
  have hback : (((nodes i).nlink + 1) % 2 ^ 16 + (2 ^ 16 - 1)) % 2 ^ 16 = (nodes i).nlink := by omega
  have hshifted : ∀ y, (subLink (subLink (setEnt (addLink (setEnt nodes d j ⟨i, short⟩) i)
      sd sj ⟨0, []⟩) sd) i y).nlink =
      if y = sd then ((nodes y).nlink + (2 ^ 16 - 1)) % 2 ^ 16 else (nodes y).nlink := by
    intro y
    simp only [nlink_subLink, nlink_setEnt, nlink_addLink, if_neg hsdi, if_neg (Ne.symm hsdi), if_true]
    by_cases hyi : y = i
    · rw [if_pos hyi, hyi, if_neg (Ne.symm hsdi), hback]
    · by_cases hysd : y = sd
      · rw [if_neg hyi, if_pos hysd, if_pos hysd, hysd]
      · rw [if_neg hyi, if_neg hysd, if_neg hyi, if_neg hysd]
  rw [nlink_addLink, nlink_setEnt, nlink_setEnt, hshifted, hshifted]
  by_cases hcd : c = d
  · subst hcd
    rw [if_pos rfl, if_pos rfl]
    by_cases hcsd : c = sd
    · rw [if_pos hcsd, if_pos hcsd.symm]
      omega
    · rw [if_neg hcsd, if_neg (Ne.symm hcsd), Nat.add_zero]
  · rw [if_neg hcd, if_neg (Ne.symm hcd)]
    by_cases hcsd : c = sd
    · rw [if_pos hcsd, if_pos hcsd.symm, Nat.add_zero]
    · rw [if_neg hcsd, if_neg (Ne.symm hcsd)]
      omega

/-- **A directory moves** to one that is not below it. -/
theorem Grown.moveDir {sb : Super} {short : Name} (h : Grown n nodes) (hn : n ≤ 2 ^ 16)
    (hv : Vacant nodes d j short) (hst : Stores i name short) (hholds : Holds nodes sd sj i)
    (hi : (nodes i).type = .dir) (hroot : i ≠ root) (hnot : ¬ ReflTransGen (Up nodes) d i)
    (hup : upward sb (setEnt (added nodes d j name i) sd sj ⟨0, []⟩) sd i = true) :
    Grown n (addLink (setEnt (unlinked sb (added nodes d j name i) sd sj i) i 1 ⟨d, dotdot⟩) d) := by
  have hfits := h.counts.fits i (FileType.ne_free_of_dir hi)
  have hsdi : sd ≠ i := h.branches.ne_parent hi hroot hholds
  have hdi : d ≠ i := by
    rintro rfl
    exact hnot ReflTransGen.refl
  have hrows := h.rows.relinked hv hholds
  have hdots : (relinked nodes d j short sd sj i i).ents[1]? = some ⟨sd, dotdot⟩ := by
    rw [relinked, ents_setEnt, if_neg (Ne.symm hsdi), ents_setEnt, if_neg (Ne.symm hdi)]
    exact (h.branches.up hi hroot hholds).1.2.2
  have hdir : ∀ {y : Nat}, (nodes y).type = .dir → (relinked nodes d j short sd sj i y).type = .dir := by
    intro y hy
    rw [type_relinked, hy]
  have hsd0 := Nat.ne_of_gt (h.rows.inside sd (FileType.ne_free_of_dir hholds.1)).1
  have hbranches : Branches (setEnt (relinked nodes d j short sd sj i) i 1 ⟨d, dotdot⟩) :=
    h.branches.move hi hroot hholds hv.dir hv.ge hv.le hv.not_holds rfl hnot
  have hlinks : ∀ c, (nodes c).type ≠ .free →
      links n (setEnt (relinked nodes d j short sd sj i) i 1 ⟨d, dotdot⟩) c +
        (if sd = c then 1 else 0) = links n nodes c + if d = c then 1 else 0 := by
    intro c hc
    rw [links_dotdot hrows (hdir hi) hdots,
      links_relinked h.rows hv hholds (Nat.ne_of_gt (h.rows.inside c hc).1)]
  rw [hst.unlinked_added hsdi (h.nlink_ne_zero hholds) hfits, hup, if_pos rfl]
  refine Grown.of_mod (hrows.setDotdot (hdir hi) hdots hsd0 (hdir hv.dir)) hbranches hn
    (fun c => ?_) (fun c => ?_) (fun c hc => ?_) fun c hc hfile => ?_
  · simp only [type_addLink, type_setEnt, type_subLink, type_relinked]
  · rw [ents_addLink, ents_setEnt, ents_setEnt, ents_subLink, ents_subLink, ents_subLink,
      ents_subLink, ents_relinked, ents_relinked]
  · rw [type_setEnt, type_relinked] at hc
    have hc' := hlinks c hc
    rw [← h.counts.count c hc] at hc'
    rw [nlink_moved hsdi hfits (h.counts.fits c hc), ← hc']
    split <;> omega
  · rw [type_setEnt, type_relinked] at hc hfile
    have hc' := hlinks c hc
    have hsd : sd ≠ c := by
      rintro rfl
      exact hfile hholds.1
    have hd : d ≠ c := by
      rintro rfl
      exact hfile hv.dir
    rw [if_neg hsd, if_neg hd, Nat.add_zero, Nat.add_zero] at hc'
    rw [hc']
    exact h.counts.file_links hc hfile

end Yaos.Fs
