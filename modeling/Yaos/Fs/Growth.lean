import Yaos.Fs.Tree
import Yaos.Fs.Create
import Mathlib.Algebra.BigOperators.Group.Finset.Piecewise

/-!
# What the operations do to the tree

A new directory is entered, an empty one goes, one is moved; and what becomes of
the links when an entry is written.
-/

namespace Yaos.Fs

open Yaos.Lib Relation Function

variable {nodes nodes' : Nodes} {l : List Dirent} {e : Dirent} {d i j k c p n ip rp sd sj : Nat}
  {name : Name} {x : Node}

/-! ## Directories -/

/-- A directory without entries but `.` and `..` is entered at `j`. -/
theorem Branches.enter (h : Branches nodes) (hip : (nodes ip).type ≠ .dir)
    (hnone : ∀ d k, ¬ Holds nodes d k ip) (hrp : (nodes rp).type = .dir) (hx : x.type = .dir)
    (hdots : x.ents[1]? = some ⟨rp, Fs.dotdot⟩) (hlen : x.ents.length = 2) (hj : 2 ≤ j)
    (hle : j ≤ (nodes rp).ents.length) (hdead : ∀ c, ¬ Holds nodes rp j c) (he : e.inum = ip)
    (h0 : ip ≠ 0) : Branches (Fs.setEnt (update nodes ip x) rp j e) := by
  have hother : ∀ c, (nodes c).type = .dir → c ≠ ip := by
    rintro c hc rfl
    exact hip hc
  have hrow : ∀ c, (nodes c).type = .dir → update nodes ip x c = nodes c :=
    fun c hc => update_of_ne (hother c hc) _ _
  have hle' : j ≤ (update nodes ip x rp).ents.length := by rwa [hrow rp hrp]
  -- the new directory holds nothing
  have hholds : ∀ d k c, Holds (update nodes ip x) d k c ↔ Holds nodes d k c := by
    intro d k c
    by_cases hd : d = ip
    · subst hd
      constructor
      · rintro ⟨-, hk, -, name, hname⟩
        rw [update_self] at hname
        have := (List.getElem?_eq_some_iff.mp hname).1
        omega
      · exact fun hd => absurd hd.1 hip
    · rw [Holds, Holds, update_of_ne hd]
  have hone : ∀ c, (nodes c).type = .dir →
      (Fs.setEnt (update nodes ip x) rp j e c).ents[1]? = (nodes c).ents[1]? := by
    intro c hc
    rw [ents_setEnt_one hj hle', hrow c hc]
  have hself : Up (Fs.setEnt (update nodes ip x) rp j e) ip rp := by
    refine ⟨(hother root h.rootDir).symm, ?_, ?_⟩
    · rw [type_setEnt, update_self, hx]
    · rw [ents_setEnt_one hj hle', update_self, hdots]
  have hup : ∀ a b, Up nodes a b → Up (Fs.setEnt (update nodes ip x) rp j e) a b := by
    intro a b hab
    exact ⟨hab.1, by rw [type_setEnt, hrow a hab.2.1, hab.2.1], by rw [hone a hab.2.1, hab.2.2]⟩
  refine ⟨by rw [type_setEnt, hrow root h.rootDir, h.rootDir], by rw [hone root h.rootDir, h.top],
    fun d k hd => ?_, fun c hc hroot => ?_, fun c hc => ?_⟩
  · rw [holds_setEnt hle', hholds] at hd
    split at hd
    next => exact hother root h.rootDir (hd.2.2.2.symm.trans he)
    next => exact h.first d k hd
  · by_cases hcip : c = ip
    · subst hcip
      refine ⟨rp, j, hself.2.2, fun d k => ?_⟩
      rw [holds_setEnt hle', hholds, hrow rp hrp]
      split
      next heq => exact ⟨fun _ => heq, fun _ => ⟨hrp, hj, h0, he⟩⟩
      next hne => exact ⟨fun hd => absurd hd (hnone d k), fun heq => absurd heq hne⟩
    · rw [type_setEnt, update_of_ne hcip] at hc
      obtain ⟨p, m, hp, hiff⟩ := h.parent c hc hroot
      refine ⟨p, m, by rw [hone c hc, hp], fun d k => ?_⟩
      rw [holds_setEnt hle', hholds, ← hiff]
      split
      next heq =>
        obtain ⟨rfl, rfl⟩ := heq
        exact ⟨fun hd => absurd (hd.2.2.2.symm.trans he) hcip, fun hd => absurd hd (hdead c)⟩
      next => exact Iff.rfl
  · by_cases hcip : c = ip
    · subst hcip
      exact Rooted.head hself ((h.rooted rp hrp).mono hup)
    · rw [type_setEnt, update_of_ne hcip] at hc
      exact (h.rooted c hc).mono hup

theorem Branches.leave (h : Branches nodes) (hi : (nodes i).type = .dir) (hroot : i ≠ root)
    (hholds : Holds nodes d j i) (hempty : ∀ k c, ¬ Holds nodes i k c) :
    Branches (update (Fs.setEnt nodes d j ⟨0, []⟩) i .gone) := by
  have hle := Nat.le_of_lt hholds.lt
  have hj := hholds.2.1
  have hgone : Node.gone.type ≠ .dir := by decide
  have hrow : ∀ c, c ≠ i → update (Fs.setEnt nodes d j ⟨0, []⟩) i .gone c =
      Fs.setEnt nodes d j ⟨0, []⟩ c := fun c hc => update_of_ne hc _ _
  have hne : ∀ c, (update (Fs.setEnt nodes d j ⟨0, []⟩) i Node.gone c).type = .dir →
      c ≠ i ∧ (nodes c).type = .dir := by
    intro c hc
    have hci : c ≠ i := by
      rintro rfl
      rw [update_self] at hc
      exact hgone hc
    rw [hrow c hci, type_setEnt] at hc
    exact ⟨hci, hc⟩
  have hup : ∀ a b, a ≠ i → Up nodes a b →
      Up (update (Fs.setEnt nodes d j ⟨0, []⟩) i .gone) a b := by
    intro a b ha hab
    refine ⟨hab.1, ?_, ?_⟩
    · rw [hrow a ha, type_setEnt, hab.2.1]
    · rw [hrow a ha, ents_setEnt_one hj hle, hab.2.2]
  refine ⟨by rw [hrow root hroot.symm, type_setEnt, h.rootDir],
    by rw [hrow root hroot.symm, ents_setEnt_one hj hle, h.top], fun y k hy => ?_,
    fun c hc hcroot => ?_, fun c hc => ?_⟩
  · obtain ⟨hyi, -⟩ := hne y hy.1
    rw [Holds, hrow y hyi, ← Holds, holds_setEnt hle] at hy
    split at hy
    next => exact hy.2.2.1 hy.2.2.2.symm
    next => exact h.first y k hy
  · obtain ⟨hci, hdir⟩ := hne c hc
    obtain ⟨p, m, hp, hiff⟩ := h.parent c hdir hcroot
    refine ⟨p, m, by rw [hrow c hci, ents_setEnt_one hj hle, hp], fun y k => ?_⟩
    rw [← hiff]
    by_cases hy : y = i
    · subst hy
      refine ⟨fun hbad => ?_, fun hbad => absurd hbad (hempty k c)⟩
      have htype := hbad.1
      rw [update_self] at htype
      exact absurd htype hgone
    · have hsame : Holds (update (Fs.setEnt nodes d j ⟨0, []⟩) i .gone) y k c ↔
          Holds (Fs.setEnt nodes d j ⟨0, []⟩) y k c := by
        rw [Holds, Holds, hrow y hy]
      rw [hsame, holds_setEnt hle]
      split
      next heq =>
        obtain ⟨rfl, rfl⟩ := heq
        exact ⟨fun hbad => absurd hbad.2.2.2.symm hbad.2.2.1,
          fun hbad => absurd (hbad.unique hholds) hci⟩
      next => exact Iff.rfl
  · obtain ⟨hci, hdir⟩ := hne c hc
    refine (h.rooted c hdir).prune hup ?_ hci
    intro a ha
    obtain ⟨k, hk⟩ := h.holds ha
    exact hempty k a hk

/-- What a move of `i` changes: the entry `sj` of `sd` is cleared, the entry `j` of `d`
names `i`, and the `..` of `i` names `d`. -/
structure Rehung (nodes nodes' : Nodes) (i sd sj d j : Nat) : Prop where
  type : ∀ c, (nodes' c).type = (nodes c).type
  dotdot : (nodes' i).ents[1]? = some ⟨d, Fs.dotdot⟩
  others : ∀ c, c ≠ i → (nodes' c).ents[1]? = (nodes c).ents[1]?
  holds : ∀ y k c, Holds nodes' y k c ↔
    ¬ (y = sd ∧ k = sj) ∧ if y = d ∧ k = j then c = i else Holds nodes y k c

theorem Branches.rehang (h : Branches nodes) (hi : (nodes i).type = .dir) (hroot : i ≠ root)
    (hholds : Holds nodes sd sj i) (hd : (nodes d).type = .dir) (hj : 2 ≤ j)
    (hle : j ≤ (nodes d).ents.length) (he : e.inum = i) (hdi : d ≠ i) :
    Rehung nodes (Fs.setEnt (Fs.setEnt (Fs.setEnt nodes d j e) sd sj ⟨0, []⟩) i 1 ⟨d, Fs.dotdot⟩)
      i sd sj d j := by
  have hsdi : sd ≠ i := h.ne_parent hi hroot hholds
  have h0 := hholds.2.2.1
  -- the three entries are there
  have hle₂ : sj ≤ (Fs.setEnt nodes d j e sd).ents.length := by
    rw [ents_setEnt]
    split
    next heq =>
      have hlt := hholds.lt
      rw [heq] at hlt
      rw [length_setAt hle]
      omega
    next => exact Nat.le_of_lt hholds.lt
  have hle₃ : 1 ≤ (Fs.setEnt (Fs.setEnt nodes d j e) sd sj ⟨0, []⟩ i).ents.length := by
    rw [ents_setEnt, if_neg hsdi.symm, ents_setEnt, if_neg hdi.symm]
    exact Nat.le_of_lt (h.one_lt hi)
  refine ⟨fun c => by simp only [type_setEnt], ?_, fun c hc => ?_, fun y k c => ?_⟩
  · rw [ents_setEnt, if_pos rfl, getElem?_setAt hle₃, if_pos rfl]
  · rw [ents_setEnt, if_neg hc, ents_setEnt_one hholds.2.1 hle₂, ents_setEnt_one hj hle]
  · rw [holds_setEnt hle₃, holds_setEnt hle₂, holds_setEnt hle]
    by_cases hfirst : y = i ∧ k = 1
    · obtain ⟨rfl, rfl⟩ := hfirst
      have hlow : ¬ Holds nodes y 1 c := fun hbad => absurd hbad.2.1 (by omega)
      simp [hlow, hdi.symm]
    rw [if_neg hfirst]
    by_cases hsecond : y = sd ∧ k = sj
    · rw [if_pos hsecond]
      refine ⟨fun hbad => absurd hbad.2.2.2.symm hbad.2.2.1, fun hbad => absurd hsecond hbad.1⟩
    rw [if_neg hsecond]
    by_cases hthird : y = d ∧ k = j
    · rw [if_pos hthird, if_pos hthird]
      refine ⟨fun hnew => ⟨hsecond, hnew.2.2.2.symm.trans he⟩, fun hnew => ?_⟩
      rw [hnew.2]
      exact ⟨hd, hj, h0, he⟩
    · rw [if_neg hthird, if_neg hthird]
      exact ⟨fun hnew => ⟨hsecond, hnew⟩, fun hnew => hnew.2⟩

theorem Rehung.parent (hr : Rehung nodes nodes' i sd sj d j) (h : Branches nodes)
    (hi : (nodes i).type = .dir) (hroot : i ≠ root) (hholds : Holds nodes sd sj i)
    (hdead : ∀ c, ¬ Holds nodes d j c) (hc : (nodes c).type = .dir) (hcroot : c ≠ root) :
    ∃ p m, (nodes' c).ents[1]? = some ⟨p, Fs.dotdot⟩ ∧ ∀ y k, Holds nodes' y k c ↔ y = p ∧ k = m := by
  have hplace : ¬ (d = sd ∧ j = sj) := by
    rintro ⟨rfl, rfl⟩
    exact hdead i hholds
  by_cases hci : c = i
  · subst hci
    refine ⟨d, j, hr.dotdot, fun y k => ?_⟩
    rw [hr.holds]
    by_cases hyk : y = d ∧ k = j
    · obtain ⟨rfl, rfl⟩ := hyk
      simp [hplace]
    · rw [if_neg hyk]
      refine ⟨fun hbad => ?_, fun hbad => absurd hbad hyk⟩
      exact absurd ((h.up hi hroot hholds).2 y k hbad.2) hbad.1
  · obtain ⟨p, m, hp, hpm⟩ := h.parent c hc hcroot
    refine ⟨p, m, by rw [hr.others c hci, hp], fun y k => ?_⟩
    rw [hr.holds, ← hpm]
    by_cases hyk : y = d ∧ k = j
    · obtain ⟨rfl, rfl⟩ := hyk
      simp [hci, hdead c]
    · rw [if_neg hyk]
      refine ⟨fun hnew => hnew.2, fun hold => ⟨?_, hold⟩⟩
      rintro ⟨rfl, rfl⟩
      exact hci (hold.unique hholds)

/-- The directory `i` moves from the entry `sj` of `sd` to the entry `j` of `d`,
which is not below it. -/
theorem Branches.move (h : Branches nodes) (hi : (nodes i).type = .dir) (hroot : i ≠ root)
    (hholds : Holds nodes sd sj i) (hd : (nodes d).type = .dir) (hj : 2 ≤ j)
    (hle : j ≤ (nodes d).ents.length) (hdead : ∀ c, ¬ Holds nodes d j c) (he : e.inum = i)
    (hnot : ¬ ReflTransGen (Up nodes) d i) :
    Branches (Fs.setEnt (Fs.setEnt (Fs.setEnt nodes d j e) sd sj ⟨0, []⟩) i 1 ⟨d, Fs.dotdot⟩) := by
  have hdi : d ≠ i := by
    rintro rfl
    exact hnot ReflTransGen.refl
  have hr := h.rehang hi hroot hholds hd hj hle he hdi
  refine ⟨by rw [hr.type, h.rootDir], by rw [hr.others root hroot.symm, h.top], fun y k hy => ?_,
    fun c hc hcroot => ?_, fun c hc => ?_⟩
  · have hy := ((hr.holds y k root).mp hy).2
    split at hy
    next => exact hroot hy.symm
    next => exact h.first y k hy
  · rw [hr.type] at hc
    exact hr.parent h hi hroot hholds hdead hc hcroot
  · rw [hr.type] at hc
    refine (h.rooted c hc).move ?_ ⟨hroot, by rw [hr.type, hi], hr.dotdot⟩ (h.rooted d hd) hnot
    intro a b ha hab
    exact ⟨hab.1, by rw [hr.type, hab.2.1], by rw [hr.others a ha, hab.2.2]⟩

/-! ## Links -/

/-- Whether the entry at a place counts as a link of `c`. -/
def hits (c : Nat) (o : Option Dirent) : Nat := o.elim 0 fun e => if linksTo c e then 1 else 0

theorem links_update (hd : d < n) :
    links n (update nodes d x) c + (nodes d).ents.countP (linksTo c) =
      links n nodes c + x.ents.countP (linksTo c) := by
  have hmem : d ∈ Finset.range n := Finset.mem_range.mpr hd
  have hrest : ∑ y ∈ (Finset.range n).erase d,
      (update nodes d x y).ents.countP (linksTo c) =
      ∑ y ∈ (Finset.range n).erase d, (nodes y).ents.countP (linksTo c) :=
    Finset.sum_congr rfl fun y hy => by rw [update_of_ne (Finset.ne_of_mem_erase hy)]
  have hnew := Finset.add_sum_erase (Finset.range n)
    (fun y => (update nodes d x y).ents.countP (linksTo c)) hmem
  have hold := Finset.add_sum_erase (Finset.range n)
    (fun y => (nodes y).ents.countP (linksTo c)) hmem
  rw [links, links, ← hnew, ← hold, hrest, update_self]
  omega

theorem links_setEnt (hd : d < n) (hle : j ≤ (nodes d).ents.length) :
    links n (Fs.setEnt nodes d j e) c + hits c (nodes d).ents[j]? =
      links n nodes c + hits c (some e) := by
  have hupdate : links n (Fs.setEnt nodes d j e) c + (nodes d).ents.countP (linksTo c) =
      links n nodes c + (setAt (nodes d).ents j e).countP (linksTo c) := links_update hd
  have hcount := countP_setAt (x := e) (linksTo c) hle
  rw [hits, hits, Option.elim_some]
  omega

theorem links_congr (hents : ∀ i, (nodes' i).ents = (nodes i).ents) :
    links n nodes' c = links n nodes c :=
  Finset.sum_congr rfl fun d _ => by rw [hents]

theorem links_eq_zero :
    links n nodes c = 0 ↔ ∀ d < n, ∀ e ∈ (nodes d).ents, linksTo c e = false := by
  rw [links, Finset.sum_eq_zero_iff]
  simp only [Finset.mem_range, List.countP_eq_zero, Bool.not_eq_true]

theorem linksTo_dot : linksTo c ⟨d, dot⟩ = false := by simp [linksTo]

theorem linksTo_of_ne (hname : name ≠ dot) : linksTo c ⟨i, name⟩ = decide (i = c) := by
  simp [linksTo, hname]

theorem Rows.cons (h : Rows n nodes) (hd : (nodes d).type = .dir)
    (hdots : (nodes d).ents[1]? = some ⟨p, Fs.dotdot⟩) :
    ∃ l, (nodes d).ents = ⟨d, dot⟩ :: ⟨p, Fs.dotdot⟩ :: l := by
  have hself := (h.listed d hd).self
  match hents : (nodes d).ents, hself, hdots with
  | e :: e' :: l, hself, hdots =>
    cases hself
    cases hdots
    exact ⟨l, rfl⟩

/-- The links of `c` in a directory: `..` and what is behind it. -/
theorem Rows.countP_row (h : Rows n nodes) (hd : (nodes d).type = .dir) (hc : c ≠ 0)
    (hdots : (nodes d).ents[1]? = some ⟨p, Fs.dotdot⟩) :
    ∃ m, (nodes d).ents.countP (linksTo c) = (if p = c then 1 else 0) + m ∧
      ((∀ k, ¬ Holds nodes d k c) → m = 0) ∧
      ((∀ k k', Holds nodes d k c → Holds nodes d k' c → k = k') → m ≤ 1) := by
  obtain ⟨l, hl⟩ := h.cons hd hdots
  have hholds : ∀ (k : Nat) (e : Dirent), l[k]? = some e → linksTo c e = true →
      Holds nodes d (k + 2) c := by
    intro k e hk he
    have heq : e.inum = c := (of_decide_eq_true he).1
    exact ⟨hd, by omega, hc, e.name, by rw [hl, ← heq]; exact hk⟩
  refine ⟨l.countP (linksTo c), ?_, fun hnone => ?_, fun huniq => ?_⟩
  · rw [hl, List.countP_cons_of_neg (by simp [linksTo_dot]), List.countP_cons,
      linksTo_of_ne (by decide)]
    simp only [decide_eq_true_eq]
    omega
  · rw [List.countP_eq_zero]
    intro e he hlinks
    obtain ⟨k, hk⟩ := List.mem_iff_getElem?.mp he
    exact hnone _ (hholds k e hk hlinks)
  · apply countP_le_one
    intro j k e e' hj hk he he'
    have := huniq _ _ (hholds j e hj he) (hholds k e' hk he')
    omega

/-- **A directory has fewer links than there are inodes.** -/
theorem links_lt (hr : Rows n nodes) (hb : Branches nodes) (hc : (nodes c).type = .dir) :
    links n nodes c < n := by
  obtain ⟨hpos, hlt⟩ := hr.inside c (FileType.ne_free_of_dir hc)
  have hc0 : c ≠ 0 := Nat.ne_of_gt hpos
  have hzero : (nodes 0).ents.countP (linksTo c) = 0 := by
    have hnot : (nodes 0).type ≠ .dir := fun hdir =>
      absurd (hr.inside 0 (FileType.ne_free_of_dir hdir)).1 (Nat.lt_irrefl 0)
    rw [hr.plain 0 hnot]
    rfl
  have hcard : ((Finset.range n).erase 0).card = n - 1 := by
    rw [Finset.card_erase_of_mem (Finset.mem_range.mpr (by omega)), Finset.card_range]
  have hsum : links n nodes c = ∑ d ∈ (Finset.range n).erase 0, (nodes d).ents.countP (linksTo c) :=
    (Finset.sum_erase (f := fun d => (nodes d).ents.countP (linksTo c)) (a := 0) _ hzero).symm
  by_cases hroot : c = root
  · -- the root is only named by `..`
    have hle : ∀ d ∈ (Finset.range n).erase 0, (nodes d).ents.countP (linksTo c) ≤ 1 := by
      intro d _
      by_cases hd : (nodes d).type = .dir
      · obtain ⟨p, hp⟩ := hb.dotdot hd
        obtain ⟨m, heq, hnone, -⟩ := hr.countP_row hd hc0 hp
        have hm := hnone fun k => hroot ▸ hb.first d k
        rw [heq, hm]
        split <;> omega
      · rw [hr.plain d hd]
        exact Nat.zero_le _
    have hbound := Finset.sum_le_sum hle
    rw [← Finset.card_eq_sum_ones, hcard, ← hsum] at hbound
    omega
  · -- it does not name itself, so the entry of the parent may count
    obtain ⟨p, m, hp, hiff⟩ := hb.parent c hc hroot
    have hpc : p ≠ c := hb.ne_parent hc hroot ((hiff p m).mpr ⟨rfl, rfl⟩)
    have hself : (nodes c).ents.countP (linksTo c) = 0 := by
      obtain ⟨m', heq, hnone, -⟩ := hr.countP_row hc hc0 hp
      have hm := hnone fun k hk => hpc ((hiff c k).mp hk).1.symm
      rw [heq, hm, if_neg hpc]
    have hle : ∀ d ∈ ((Finset.range n).erase 0).erase c,
        (nodes d).ents.countP (linksTo c) ≤ 1 + if p = d then 1 else 0 := by
      intro d _
      by_cases hd : (nodes d).type = .dir
      · obtain ⟨q, hq⟩ := hb.dotdot hd
        obtain ⟨m', heq, hnone, huniq⟩ := hr.countP_row hd hc0 hq
        rw [heq]
        by_cases hpd : p = d
        · have hm := huniq fun k k' hk hk' => ((hiff d k).mp hk).2.trans ((hiff d k').mp hk').2.symm
          rw [if_pos hpd]
          split <;> omega
        · have hm := hnone fun k hk => hpd ((hiff d k).mp hk).1.symm
          rw [hm]
          split <;> omega
      · rw [hr.plain d hd]
        exact Nat.zero_le _
    have hcmem : c ∈ (Finset.range n).erase 0 :=
      Finset.mem_erase.mpr ⟨hc0, Finset.mem_range.mpr hlt⟩
    have hcard' : (((Finset.range n).erase 0).erase c).card = n - 1 - 1 := by
      rw [Finset.card_erase_of_mem hcmem, hcard]
    have hbound := Finset.sum_le_sum hle
    rw [Finset.sum_erase (f := fun d => (nodes d).ents.countP (linksTo c)) (a := c) _ hself, ← hsum,
      Finset.sum_add_distrib, ← Finset.card_eq_sum_ones, hcard', Finset.sum_ite_eq] at hbound
    have hc1 : c ≠ 1 := hroot
    split at hbound <;> omega

end Yaos.Fs
