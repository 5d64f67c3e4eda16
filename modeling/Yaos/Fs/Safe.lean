import Yaos.Fs.Tidy

/-!
# Calls that keep an image in order

`Safe k` says of a call: with `k` free blocks it keeps the blocks accounted for
and the directories in order, it leaves the bits outside the data blocks alone
and uses at most `k` blocks; the only stops are a missing inode and an
assertion. Budgets add up along a program.
-/

namespace Yaos.Fs

open Yaos.Lib Prog

/-- The image is still in order, and nothing outside the data blocks has
changed. -/
structure Kept (s t : Img) : Prop where
  tidy : Tidy t
  sb : t.sb = s.sb
  outside : ∀ c, s.sb.validDataBlock c = false → t.bit c = s.bit c

/-- A stop that has nothing to do with blocks. -/
def Stop.Benign (e : Stop) : Prop := e = .noFreeInodes ∨ e = .assert

/-- A call with `k` blocks to use. -/
def Safe {α : Type} (k : Nat) (m : FsM α) (s : Img) (Q : α → Img → Prop) : Prop :=
  Ends m s (fun a t => Kept s t ∧ s.free ≤ t.free + k ∧ Q a t)
    (fun e t => s.free < k ∨ Kept s t ∧ e.Benign)

variable {α β : Type} {m : FsM α} {f : α → FsM β} {s t u : Img} {Q Q' : α → Img → Prop}
  {R : β → Img → Prop} {i d ip j k l n : Nat} {name path : Name} {a : α} {nodes : Nodes}

theorem Tidy.kept (h : Tidy s) : Kept s s := ⟨h, rfl, fun _ _ => rfl⟩

theorem Kept.trans (h : Kept s t) (h' : Kept t u) : Kept s u where
  tidy := h'.tidy
  sb := h'.sb.trans h.sb
  outside c hc := (h'.outside c (h.sb ▸ hc)).trans (h.outside c hc)

theorem Acts.kept (h : Acts s t nodes) (hdirs : DirsOk s.sb nodes) : Kept s t where
  tidy := ⟨h.sound, by rw [h.sb, h.node]; exact hdirs⟩
  sb := h.sb
  outside := h.outside

theorem Kept.inum (h : Kept s t) (hi : s.sb.Inum i) : t.sb.Inum i := h.sb ▸ hi

theorem Tidy.isDir_root (h : Tidy s) : s.IsDir root := isDir_iff.mpr h.dirs.rootDir

theorem Tidy.dirOk (h : Tidy s) (hd : s.IsDir d) : DirOk s.sb (s.node d).ents :=
  h.dirs.dirs d (isDir_iff.mp hd)

theorem Tidy.lt_word (h : Tidy s) (hi : s.sb.Inum i) : i < 2 ^ 16 :=
  Nat.lt_of_lt_of_le hi.2 h.sound.blocks.owned.layout.inodes

/-! ## The rules -/

theorem Safe.mono (h : Safe k m s Q) (hk : k ≤ l) (hQ : ∀ a t, Q a t → Q' a t) : Safe l m s Q' := by
  refine Ends.mono h ?_ ?_
  · rintro a t ⟨hkept, hfree, hq⟩
    exact ⟨hkept, by omega, hQ a t hq⟩
  · rintro e t (hlt | hkept)
    · exact .inl (by omega)
    · exact .inr hkept

theorem Safe.bind (h : Safe k m s Q)
    (hf : ∀ a t, Kept s t → s.free ≤ t.free + k → Q a t → Safe l (f a) t R) :
    Safe (k + l) (m >>= f) s R := by
  refine Ends.bind (Ends.mono h (fun a t hq => hq) ?_) ?_
  · rintro e t (hlt | hkept)
    · exact .inl (by omega)
    · exact .inr hkept
  · rintro a t ⟨hkept, hfree, hq⟩
    refine Ends.mono (hf a t hkept hfree hq) ?_ ?_
    · rintro b u ⟨hkept', hfree', hr⟩
      exact ⟨hkept.trans hkept', by omega, hr⟩
    · rintro e u (hlt | ⟨hkept', hbenign⟩)
      · exact .inl (by omega)
      · exact .inr ⟨hkept.trans hkept', hbenign⟩

theorem Safe.andThen (h : Safe k m s Q) (hf : ∀ a t, Kept s t → Q a t → Safe 0 (f a) t R) :
    Safe k (m >>= f) s R :=
  Safe.bind h fun a t hkept _ hq => hf a t hkept hq

theorem Safe.pure (h : Tidy s) (hq : Q a s) : Safe k (pure a : FsM α) s Q :=
  ⟨h.kept, Nat.le_add_right _ _, hq⟩

theorem Safe.read (h : m s = (.ok a, s)) (hf : Safe k (f a) s R) : Safe k (m >>= f) s R :=
  Ends.bind_eq h hf

theorem Safe.gets {g : Img → α} (hf : Safe k (f (g s)) s R) : Safe k (Prog.gets g >>= f) s R := hf

/-- A step whose result is known; it gives back `g` blocks. -/
theorem Safe.gain {g : Nat} (h : m s = (.ok a, t)) (hkept : Kept s t) (hfree : s.free + g ≤ t.free)
    (hl : l ≤ k + g) (hf : Safe l (f a) t R) : Safe k (m >>= f) s R := by
  refine Ends.bind_eq h (Ends.mono hf ?_ ?_)
  · rintro b u ⟨hkept', hfree', hr⟩
    exact ⟨hkept.trans hkept', by omega, hr⟩
  · rintro e u (hlt | ⟨hkept', hbenign⟩)
    · exact .inl (by omega)
    · exact .inr ⟨hkept.trans hkept', hbenign⟩

/-- A call that returns if it finds the blocks. -/
def Sure {α : Type} (k : Nat) (m : FsM α) (s : Img) (Q : α → Img → Prop) : Prop :=
  Ends m s (fun a t => Kept s t ∧ s.free ≤ t.free + k ∧ Q a t) fun _ _ => s.free < k

theorem Sure.safe (h : Sure k m s Q) : Safe k m s Q := h.mono (fun _ _ hq => hq) fun _ _ => .inl

theorem Sure.returns (h : Sure k m s Q) (hk : k ≤ s.free) : ∃ a t, m s = (.ok a, t) ∧ Q a t := by
  obtain ⟨a, t, heq, -, -, hq⟩ := (h.mono (fun _ _ hq => hq)
    fun _ _ hlt => absurd hlt (Nat.not_lt_of_le hk)).exists_eq
  exact ⟨a, t, heq, hq⟩

/-! ## Looking -/

/-- The directory and the name that a path from the root leads to; that name, the last
element of the path, is not looked up. -/
def Img.spot (s : Img) (path : Name) : Option (Nat × Name) := s.walk (path.length + 1) root path

/-- The inode at the end of a path from the root. -/
def Img.resolve (s : Img) (path : Name) : Option Nat := (s.spot path).bind s.at

theorem lookup_eq (h : Tidy s) (path : Name) : lookup path s = (.ok (s.resolve path), s) :=
  ilookup_eq h.sound _ _ _ h.isDir_root (Nat.lt_succ_self _)

theorem find_inum (h : inodeOf (s.find d name) = some i) : s.sb.Inum i := by
  obtain ⟨off, hfind⟩ := inodeOf_eq_some h
  exact (find_eq_some hfind).1

theorem resolve_inum (h : Tidy s) (hr : s.resolve path = some i) : s.sb.Inum i := by
  obtain ⟨⟨d, name⟩, hwalk, hat⟩ := Option.bind_eq_some_iff.mp hr
  rw [Img.at] at hat
  split at hat
  · cases hat
    exact (walk_isDir _ _ _ h.isDir_root hwalk).1
  · exact find_inum hat

/-! ## Entries -/

theorem slots_le_two (n : Nat) : slots (n + 1) ≤ slots n + 2 := by
  unfold slots
  split_ifs <;> omega

theorem dirCost_succ (n : Nat) : dirCost (n + 1) ≤ dirCost n + 2 := by
  have hstep : divceil (direntSize * (n + 1)) bsize ≤ divceil (direntSize * n) bsize + 1 := by
    rw [divceil_eq, divceil_eq]
    unfold direntSize bsize
    omega
  exact Nat.le_trans (slots_mono hstep) (slots_le_two _)

theorem dirCost_max (hj : j ≤ n) : dirCost n ≤ dirCost (max n (j + 1)) ∧
    dirCost (max n (j + 1)) ≤ dirCost n + 2 := by
  rcases Nat.lt_or_ge j n with hlt | hge
  · rw [Nat.max_eq_left hlt]
    omega
  · obtain rfl : j = n := Nat.le_antisymm hj hge
    rw [Nat.max_eq_right (Nat.le_succ _)]
    refine ⟨slots_mono (divceil_mono (Nat.mul_le_mul_left _ (Nat.le_succ _))), dirCost_succ j⟩

/-- An entry for `ip` is made, if there is a place for it. -/
def Entered (s t : Img) (d : Nat) (name : Name) (ip : Nat) : Prop :=
  t.node = (s.place d name).elim s.node fun j => added s.node d j name ip

theorem Entered.type (h : Entered s t d name ip) (c : Nat) : (t.node c).type = (s.node c).type := by
  rw [h]
  cases s.place d name with
  | none => rfl
  | some j => exact type_added

/-- The directory has to grow for the entry, and there are no blocks for it. -/
def Img.Starved (s : Img) (gain d : Nat) (name : Name) : Prop :=
  ∃ j, s.place d name = some j ∧ s.free + gain + dirCost (s.node d).ents.length <
    dirCost (max (s.node d).ents.length (j + 1))

/-- What `daddent` leaves beside the nodes. -/
def Spared (s t : Img) (d : Nat) : Prop := ∀ i, i ≠ d → s.sb.Inum i → t.bytes i = s.bytes i

/-- **What `daddent` does**: it makes the entry if there is a place for it, and
stops if there are no blocks. -/
theorem daddent_spec (h : Sound s) (hd : s.IsDir d) (hip : s.sb.Inum ip) (name : Name) :
    Ends (daddent d name ip) s
      (fun r t => ¬ s.Starved 0 d name ∧
        Acts s t ((s.place d name).elim s.node fun j => added s.node d j name ip) ∧
        s.free ≤ t.free + 2 ∧ Spared s t d ∧ (r = true → ∃ j, s.place d name = some j))
      (fun _ t => s.Starved 0 d name ∧ s.free < 2 ∧ Halted s t) := by
  simp only [Img.Starved, Nat.add_zero]
  cases hplace : s.place d name with
  | none =>
    refine Ends.of_eq (daddent_of_none h hd hplace) ⟨?_, .refl h, by omega, fun _ _ _ => rfl, ?_⟩
    · rintro ⟨j, hj, -⟩
      cases hj
    · intro hr
      cases hr
  | some j =>
    obtain ⟨hcost, hcost'⟩ := dirCost_max (place_eq_some hplace).2.2
    refine Ends.mono (daddent_of_some h hd hip hplace) ?_ ?_
    · rintro r t ⟨-, hacts, hfree, hbytes⟩
      refine ⟨?_, hacts, by omega, hbytes, fun _ => ⟨j, rfl⟩⟩
      rintro ⟨j', hj', hlt⟩
      cases hj'
      omega
    · rintro e t ⟨hlt, hhalt⟩
      exact ⟨⟨j, rfl, hlt⟩, by omega, hhalt⟩

theorem daddent_runs (h : Tidy s) (hd : s.IsDir d) (hip : s.sb.Inum ip) (hroot : ip ≠ root)
    (name : Name) : Ends (daddent d name ip) s
      (fun r t => ¬ s.Starved 0 d name ∧ Kept s t ∧ s.free ≤ t.free + 2 ∧ Entered s t d name ip ∧
        Spared s t d ∧ (r = true → ∃ j, s.place d name = some j))
      (fun _ t => s.Starved 0 d name ∧ s.free < 2 ∧ Halted s t) := by
  refine (daddent_spec h.sound hd hip name).mono ?_ fun _ _ hstop => hstop
  rintro r t ⟨hfed, hacts, hfree, hbytes, hr⟩
  refine ⟨hfed, hacts.kept ?_, hfree, hacts.node, hbytes, hr⟩
  cases hplace : s.place d name with
  | none => exact h.dirs
  | some j =>
    obtain ⟨hidx, -, hle⟩ := place_eq_some hplace
    exact h.dirs.added ((h.dirOk hd).freeIdx_ge hidx) hle hip hroot (h.lt_word hip)

/-- **`daddent`** needs two blocks at most. -/
theorem daddent_safe (h : Tidy s) (hd : s.IsDir d) (hip : s.sb.Inum ip) (hroot : ip ≠ root)
    (name : Name) : Safe 2 (daddent d name ip) s fun r t =>
      Entered s t d name ip ∧ (r = true → ∃ j, s.place d name = some j) := by
  refine (daddent_runs h hd hip hroot name).mono ?_ ?_
  · rintro r t ⟨-, hkept, hfree, hentered, -, hplace⟩
    exact ⟨hkept, hfree, hentered, hplace⟩
  · rintro e t ⟨-, hlt, -⟩
    exact .inl hlt

/-- `..` of the directory `cip` names the directory `pip` now. -/
structure Reparented (s t : Img) (pip cip : Nat) : Prop where
  dir : s.IsDir pip → s.IsDir cip → t.node = addLink (setEnt s.node cip 1 ⟨pip, dotdot⟩) pip
  file : ¬ s.IsDir cip → t = s
  other : ¬ s.IsDir pip → t = s

theorem Reparented.refl {pip cip : Nat} (hc : ¬ s.IsDir cip) : Reparented s s pip cip :=
  ⟨fun _ hdir => absurd hdir hc, fun _ => rfl, fun _ => rfl⟩

theorem Reparented.type {pip cip : Nat} (h : Reparented s t pip cip) (c : Nat) :
    (t.node c).type = (s.node c).type := by
  by_cases hc : s.IsDir cip
  · by_cases hp : s.IsDir pip
    · rw [h.dir hp hc, type_addLink, type_setEnt]
    · rw [h.other hp]
  · rw [h.file hc]

theorem Reparented.ents {pip cip c : Nat} (h : Reparented s t pip cip) (hc : c ≠ cip) :
    (t.node c).ents = (s.node c).ents := by
  by_cases hcip : s.IsDir cip
  · by_cases hp : s.IsDir pip
    · rw [h.dir hp hcip, ents_addLink, ents_setEnt, if_neg hc]
    · rw [h.other hp]
  · rw [h.file hcip]

theorem dmkparlink_runs {pip cip : Nat} (h : Tidy s) (hp : s.sb.Inum pip) (hc : s.sb.Inum cip) :
    ∃ r t, dmkparlink pip cip s = (.ok r, t) ∧ Kept s t ∧ s.free ≤ t.free ∧
      Reparented s t pip cip := by
  by_cases hdirs : (s.inode pip).type = .dir ∧ (s.inode cip).type = .dir
  · have hpdir : s.IsDir pip := ⟨hp, hdirs.1⟩
    have hcdir : s.IsDir cip := ⟨hc, hdirs.2⟩
    have hok := h.dirOk hcdir
    obtain ⟨b, hb, hfind⟩ := hok.find_dotdot
    obtain ⟨t, heq, hacts, hfree⟩ := dmkparlink_eq h.sound hpdir hcdir hfind
    rw [stored_dotdot (h.lt_word hp)] at hacts
    exact ⟨true, t, heq, hacts.kept (h.dirs.setDotdot hp).addLink, Nat.le_of_eq hfree.symm,
      fun _ _ => hacts.node, fun hno => absurd hcdir hno, fun hno => absurd hpdir hno⟩
  · refine ⟨false, s, dmkparlink_of_not_dir (not_and_or.mp hdirs), h.kept, Nat.le_refl _, ?_,
      fun _ => rfl, fun _ => rfl⟩
    exact fun hpdir hcdir => absurd ⟨hpdir.2, hcdir.2⟩ hdirs

/-! ## `iunlink` -/

/-- The entry that a path names: its directory, position and inode. -/
def Img.Names (s : Img) (rp : Nat) (path : Name) (d j i : Nat) : Prop :=
  ∃ name, s.walk (path.length + 1) rp path = some (d, name) ∧ name ≠ [] ∧
    s.find d name = some (some i, direntSize * j) ∧
    ¬ (sameName name dot = true ∨ sameName name dotdot = true)

theorem Img.Names.spec {rp : Nat} (hn : s.Names rp path d j i) (h : Tidy s) (hrp : s.IsDir rp) :
    s.IsDir d ∧ 2 ≤ j ∧ j < (s.node d).ents.length ∧ s.sb.Inum i ∧ i ≠ root ∧
      ∃ nm, (s.node d).ents[j]? = some ⟨i, nm⟩ := by
  obtain ⟨name, hwalk, -, hfind, hdots⟩ := hn
  have hd := walk_isDir _ _ _ hrp hwalk
  obtain ⟨hi, j', nm, hj, hsame, hoff, -⟩ := find_eq_some hfind
  obtain rfl : j = j' := by
    unfold direntSize at hoff
    omega
  have hge := (h.dirOk hd).find_ge hdots hj hsame
  exact ⟨hd, hge, (List.getElem?_eq_some_iff.mp hj).1, hi,
    ((h.dirOk hd).rest j _ hge hj (Nat.ne_of_gt hi.1)).2, nm, hj⟩

theorem Img.Names.unique {rp d' j' i' : Nat} (h : s.Names rp path d j i)
    (h' : s.Names rp path d' j' i') : d' = d ∧ j' = j ∧ i' = i := by
  obtain ⟨name, hwalk, -, hfind, -⟩ := h
  obtain ⟨name', hwalk', -, hfind', -⟩ := h'
  rw [hwalk] at hwalk'
  cases hwalk'
  rw [hfind] at hfind'
  have hpair := Prod.mk.inj (Option.some.inj hfind')
  have hoff := hpair.2
  unfold direntSize at hoff
  exact ⟨rfl, by omega, (Option.some.inj hpair.1).symm⟩

/-- **What `iunlink` does**: nothing, or it clears the entry. -/
theorem unlinkAt_cases {rp : Nat} (h : Tidy s) (hrp : s.IsDir rp) (path : Name) :
    ((∀ d j i, ¬ s.Names rp path d j i) ∧ unlinkAt rp path s = (.ok false, s)) ∨ ∃ d j i t, s.Names rp path d j i ∧
      unlinkAt rp path s = (.ok true, t) ∧ Acts s t (unlinked s.sb s.node d j i) ∧
      Leaves s t d i := by
  rw [unlinkAt, iunlink_eq h.sound _ _ _ hrp (Nat.lt_succ_self _)]
  cases hwalk : s.walk (path.length + 1) rp path with
  | none =>
    refine .inl ⟨?_, rfl⟩
    rintro d j i ⟨name, hwalk', -⟩
    rw [hwalk] at hwalk'
    cases hwalk'
  | some place =>
    obtain ⟨d, name⟩ := place
    dsimp only
    -- an entry that is named is the one found here
    have hnot : (name = [] ∨ (∀ i off, s.find d name ≠ some (some i, off)) ∨
        sameName name dot = true ∨ sameName name dotdot = true) → ∀ d' j i, ¬ s.Names rp path d' j i := by
      rintro hno d' j i ⟨name', hwalk', hne, hfind, hdots⟩
      rw [hwalk] at hwalk'
      cases hwalk'
      rcases hno with hnil | hnone | hdot
      · exact hne hnil
      · exact hnone _ _ hfind
      · exact hdots hdot
    by_cases hname : name = []
    · rw [if_pos hname]
      exact .inl ⟨hnot (.inl hname), rfl⟩
    rw [if_neg hname, unlinkHere]
    rcases hfind : s.find d name with _ | ⟨_ | i, off⟩
    · exact .inl ⟨hnot (.inr (.inl (by simp [hfind]))), rfl⟩
    · exact .inl ⟨hnot (.inr (.inl (by simp [hfind]))), rfl⟩
    · by_cases hdots : sameName name dot = true ∨ sameName name dotdot = true
      · exact .inl ⟨hnot (.inr (.inr hdots)), unlinkEntry_of_dot hdots⟩
      · obtain ⟨j, hj, rfl⟩ := find_lt hfind
        have hd := walk_isDir _ _ _ hrp hwalk
        obtain ⟨t, heq, hacts, hleaves⟩ := unlinkEntry_eq h.sound hd (find_eq_some hfind).1 hj hdots
        exact .inr ⟨d, j, i, t, ⟨name, hwalk, hname, hfind, hdots⟩, heq, hacts, hleaves⟩

/-- The entry that the path names is cleared. -/
structure Unlinks (s t : Img) (rp : Nat) (path : Name) : Prop where
  node : ∀ d j i, s.Names rp path d j i → t.node = unlinked s.sb s.node d j i
  isDir : ∀ c, s.IsDir c → (∀ d j, ¬ s.Names rp path d j c) → t.IsDir c
  same : (∀ d j i, ¬ s.Names rp path d j i) → t = s
  bytes : ∀ c, s.sb.Inum c → ¬ s.IsDir c → (t.node c).type ≠ .free → t.bytes c = s.bytes c
  free : ∀ d j i, s.Names rp path d j i → t.free + (t.file i).cost = s.free + (s.file i).cost

theorem Unlinks.type {rp : Nat} (h : Unlinks s t rp path) (c : Nat) :
    (t.node c).type = (s.node c).type ∨ (t.node c).type = .free := by
  by_cases hnamed : ∃ d j i, s.Names rp path d j i
  · obtain ⟨d, j, i, hn⟩ := hnamed
    rw [h.node d j i hn]
    by_cases hfree : (unlinked s.sb s.node d j i c).type = .free
    · exact .inr hfree
    · exact .inl (of_unlinked hfree).1
  · rw [h.same fun d j i hn => hnamed ⟨d, j, i, hn⟩]
    exact .inl rfl

theorem Unlinks.not_dir {rp c : Nat} (h : Unlinks s t rp path) (hc : (s.node c).type ≠ .dir) :
    (t.node c).type ≠ .dir := by
  rcases h.type c with hsame | hgone
  · rwa [hsame]
  · rw [hgone]
    decide

/-- `iunlink` needs no blocks; only the inode of the entry may go. -/
theorem unlinkAt_runs {rp : Nat} (h : Tidy s) (hrp : s.IsDir rp) (path : Name) :
    ∃ r t, unlinkAt rp path s = (.ok r, t) ∧ Kept s t ∧ s.free ≤ t.free ∧ Unlinks s t rp path ∧
      (r = true → ∃ d j i, s.Names rp path d j i) := by
  rcases unlinkAt_cases h hrp path with ⟨hnone, heq⟩ | ⟨d, j, i, t, hnames, heq, hacts, hleaves⟩
  · refine ⟨false, s, heq, h.kept, Nat.le_refl _, ⟨fun d j i hn => absurd hn (hnone d j i), ?_, ?_, ?_, ?_⟩, ?_⟩
    · exact fun c hc _ => hc
    · exact fun _ => rfl
    · exact fun _ _ _ _ => rfl
    · exact fun d j i hn => absurd hn (hnone d j i)
    · intro hr
      cases hr
  · obtain ⟨hd, hge, hlt, -, hroot, -⟩ := hnames.spec h hrp
    refine ⟨true, t, heq, hacts.kept (h.dirs.unlinked hge (Nat.le_of_lt hlt) hroot), hleaves.le,
      ⟨fun d' j' i' hn => ?_, fun c hc hother => ?_, fun hnone => absurd hnames (hnone d j i),
        fun c hc hdir => hleaves.bytes c (fun hcd => hdir (hcd ▸ hd)) hc, fun d' j' i' hn => ?_⟩,
      fun _ => ⟨d, j, i, hnames⟩⟩
    · obtain ⟨rfl, rfl, rfl⟩ := hnames.unique hn
      exact hacts.node
    · rw [isDir_iff] at hc ⊢
      rw [hacts.node, type_unlinked, hc]
      rintro rfl
      exact hother d j hnames
    · obtain ⟨rfl, rfl, rfl⟩ := hnames.unique hn
      exact hleaves.free

theorem unlinkAt_safe {rp : Nat} (h : Tidy s) (hrp : s.IsDir rp) (path : Name) :
    Safe 0 (unlinkAt rp path) s fun r t =>
      Unlinks s t rp path ∧ (r = true → ∃ d j i, s.Names rp path d j i) := by
  obtain ⟨r, t, heq, hkept, hfree, hspec⟩ := unlinkAt_runs h hrp path
  exact Ends.of_eq heq ⟨hkept, hfree, hspec⟩

end Yaos.Fs
