import Yaos.Fs.Nodes
import Yaos.Fs.Truncate

/-!
# Entries and links

The functions that write directories, as changes to the table of nodes: an
entry is written (`setEnt`), a link counted (`addLink`, `subLink`), a node
given back when its last link goes (`dropped`).
-/

namespace Yaos.Fs

open Yaos.Lib Prog Function

abbrev Nodes := Nat → Node

/-- The image `t` comes from `s` and has these nodes. -/
structure Acts (s t : Img) (nodes : Nodes) : Prop where
  sound : Sound t
  sb : t.sb = s.sb
  outside : ∀ c, s.sb.validDataBlock c = false → t.bit c = s.bit c
  node : t.node = nodes

def setEnt (nodes : Nodes) (d j : Nat) (e : Dirent) : Nodes :=
  update nodes d { nodes d with ents := setAt (nodes d).ents j e }

def addLink (nodes : Nodes) (i : Nat) : Nodes :=
  update nodes i { nodes i with nlink := ((nodes i).nlink + 1) % 2 ^ 16 }

def subLink (nodes : Nodes) (i : Nat) : Nodes :=
  update nodes i { nodes i with nlink := ((nodes i).nlink + (2 ^ 16 - 1)) % 2 ^ 16 }

/-- A node that is gone if it has no links. -/
def reap (nodes : Nodes) (i : Nat) : Nodes :=
  if (nodes i).nlink = 0 then update nodes i .gone else nodes

/-- What `dropLink` leaves: `up` says that `..` of the directory `i` names `d`. -/
def dropped (nodes : Nodes) (up : Bool) (d i : Nat) : Nodes :=
  reap (subLink (if up then subLink nodes d else nodes) i) i

/-- Whether `..` of the directory `i` names `d`. -/
def upward (sb : Super) (nodes : Nodes) (d i : Nat) : Bool :=
  (nodes i).type = .dir ∧ inodeOf (findEntry sb dotdot (nodes i).ents 0) = some d

/-- What `unlinkEntry` leaves when it clears the entry `j` for `i`. -/
def unlinked (sb : Super) (nodes : Nodes) (d j i : Nat) : Nodes :=
  dropped (setEnt nodes d j ⟨0, []⟩) (upward sb (setEnt nodes d j ⟨0, []⟩) d i) d i

def Dirent.stored (e : Dirent) : Dirent := .ofBytes e.toBytes

/-- What `daddent` leaves when it puts an entry at `j`. -/
def added (nodes : Nodes) (d j : Nat) (name : Name) (i : Nat) : Nodes :=
  if sameName name dot then setEnt nodes d j (Dirent.stored ⟨i, name⟩)
  else addLink (setEnt nodes d j (Dirent.stored ⟨i, name⟩)) i

/-- Where `daddent` puts an entry: there must be room in the directory. -/
def Img.place (s : Img) (d : Nat) (name : Name) : Option Nat :=
  (freeIdx name (s.node d).ents 0).filter fun j => direntSize * (j + 1) ≤ maxFileSize

/-- The blocks of a directory of `n` entries. -/
def dirCost (n : Nat) : Nat := slots (divceil (direntSize * n) bsize)

variable {s t u : Img} {i d ip j n : Nat} {name : Name} {f : File} {nodes : Nodes}
  {buf : List UInt8}

/-! ## The fields of a table -/

section Fields

variable {c : Nat} {e : Dirent} {sb : Super} {up : Bool}

@[simp] theorem type_setEnt : (setEnt nodes d j e i).type = (nodes i).type := by
  by_cases hi : i = d
  · simp [setEnt, hi]
  · simp [setEnt, hi]

@[simp] theorem nlink_setEnt : (setEnt nodes d j e i).nlink = (nodes i).nlink := by
  by_cases hi : i = d
  · simp [setEnt, hi]
  · simp [setEnt, hi]

theorem ents_setEnt :
    (setEnt nodes d j e i).ents = if i = d then setAt (nodes d).ents j e else (nodes i).ents := by
  by_cases hi : i = d
  · simp [setEnt, hi]
  · simp [setEnt, hi]

@[simp] theorem type_addLink : (addLink nodes c i).type = (nodes i).type := by
  by_cases hi : i = c
  · simp [addLink, hi]
  · simp [addLink, hi]

@[simp] theorem ents_addLink : (addLink nodes c i).ents = (nodes i).ents := by
  by_cases hi : i = c
  · simp [addLink, hi]
  · simp [addLink, hi]

theorem nlink_addLink : (addLink nodes c i).nlink =
    if i = c then ((nodes c).nlink + 1) % 2 ^ 16 else (nodes i).nlink := by
  by_cases hi : i = c
  · simp [addLink, hi]
  · simp [addLink, hi]

@[simp] theorem type_subLink : (subLink nodes c i).type = (nodes i).type := by
  by_cases hi : i = c
  · simp [subLink, hi]
  · simp [subLink, hi]

@[simp] theorem ents_subLink : (subLink nodes c i).ents = (nodes i).ents := by
  by_cases hi : i = c
  · simp [subLink, hi]
  · simp [subLink, hi]

theorem nlink_subLink : (subLink nodes c i).nlink =
    if i = c then ((nodes c).nlink + (2 ^ 16 - 1)) % 2 ^ 16 else (nodes i).nlink := by
  by_cases hi : i = c
  · simp [subLink, hi]
  · simp [subLink, hi]

theorem reap_of_ne (hc : c ≠ i) : reap nodes i c = nodes c := by
  rw [reap]
  split
  · exact update_of_ne hc _ _
  · rfl

@[simp] theorem type_added : (added nodes d j name ip i).type = (nodes i).type := by
  rw [added]
  split
  · exact type_setEnt
  · rw [type_addLink, type_setEnt]

theorem ents_added : (added nodes d j name ip i).ents =
    if i = d then setAt (nodes d).ents j (Dirent.stored ⟨ip, name⟩) else (nodes i).ents := by
  rw [added]
  split
  · exact ents_setEnt
  · rw [ents_addLink, ents_setEnt]

theorem type_dropped (hc : c ≠ i) : (dropped nodes up d i c).type = (nodes c).type := by
  rw [dropped, reap_of_ne hc, type_subLink]
  cases up with
  | true => exact type_subLink
  | false => rfl

theorem type_unlinked (hc : c ≠ i) : (unlinked sb nodes d j i c).type = (nodes c).type := by
  rw [unlinked, type_dropped hc, type_setEnt]

theorem ents_dropped (hc : c ≠ i) : (dropped nodes up d i c).ents = (nodes c).ents := by
  rw [dropped, reap_of_ne hc, ents_subLink]
  cases up with
  | true => exact ents_subLink
  | false => rfl

theorem ents_unlinked (hc : c ≠ i) :
    (unlinked sb nodes d j i c).ents = (setEnt nodes d j ⟨0, []⟩ c).ents := ents_dropped hc

theorem reap_of_type (h : (reap nodes i i).type ≠ .free) : reap nodes i = nodes := by
  rw [reap] at h ⊢
  split at h
  next =>
    rw [update_self] at h
    exact absurd rfl h
  next hlinks => exact if_neg hlinks

theorem of_dropped (h : (dropped nodes up d i i).type ≠ .free) :
    (dropped nodes up d i i).type = (nodes i).type ∧ (dropped nodes up d i i).ents = (nodes i).ents := by
  rw [dropped, reap_of_type h, type_subLink, ents_subLink]
  cases up with
  | true => exact ⟨type_subLink, ents_subLink⟩
  | false => exact ⟨rfl, rfl⟩

theorem of_unlinked {sb : Super} (h : (unlinked sb nodes d j i c).type ≠ .free) :
    (unlinked sb nodes d j i c).type = (nodes c).type ∧
      (unlinked sb nodes d j i c).ents = (setEnt nodes d j ⟨0, []⟩ c).ents := by
  by_cases hci : c = i
  · subst hci
    rw [unlinked] at h ⊢
    obtain ⟨htype, hents⟩ := of_dropped h
    exact ⟨htype.trans type_setEnt, hents⟩
  · exact ⟨type_unlinked hci, ents_unlinked hci⟩

theorem ents_unlinked_cases {sb : Super} : (unlinked sb nodes d j i c).ents = [] ∨
    (unlinked sb nodes d j i c).ents = (setEnt nodes d j ⟨0, []⟩ c).ents := by
  by_cases hci : c = i
  · subst hci
    by_cases hzero : (subLink (if upward sb (setEnt nodes d j ⟨0, []⟩) d c then
        subLink (setEnt nodes d j ⟨0, []⟩) d else setEnt nodes d j ⟨0, []⟩) c c).nlink = 0
    · rw [unlinked, dropped, reap, if_pos hzero, update_self]
      exact .inl rfl
    · rw [unlinked, dropped, reap, if_neg hzero, ents_subLink]
      split
      · exact .inr ents_subLink
      · exact .inr rfl
  · exact .inr (ents_unlinked hci)

end Fields

/-! ## From files to nodes -/

theorem Becomes.acts (h : Becomes s t i f) (hs : Sound s) (hi : s.sb.Inum i)
    (hal : f.type = .dir → direntSize ∣ f.data.length) :
    Acts s t (update s.node i f.node) := by
  refine ⟨⟨h.blocks, ?_⟩, h.sb, h.outside, ?_⟩
  · intro i' hi' htype
    rw [h.sb] at hi'
    rw [← length_bytes]
    show direntSize ∣ (t.file i').data.length
    by_cases hne : i' = i
    · subst hne
      rw [h.self]
      apply hal
      rw [← h.self]
      exact htype
    · have hfile := h.other i' hne hi'
      rw [hfile]
      show direntSize ∣ (s.bytes i').length
      rw [length_bytes]
      apply hs.aligned i' hi'
      rw [← htype]
      exact (congrArg File.type hfile).symm
  · funext i'
    by_cases hne : i' = i
    · subst hne
      rw [node_of_inum (h.sb ▸ hi), h.self, update_self]
    · rw [update_of_ne hne, Img.node, Img.node, h.sb]
      by_cases hi' : s.sb.Inum i'
      · rw [if_pos hi', if_pos hi', h.other i' hne hi']
      · rw [if_neg hi', if_neg hi']

theorem Acts.refl (h : Sound s) : Acts s s s.node := ⟨h, rfl, fun _ _ => rfl, rfl⟩

theorem Acts.trans {nodes' : Nodes} (h : Acts s t nodes) (h' : Acts t u nodes') : Acts s u nodes' where
  sound := h'.sound
  sb := h'.sb.trans h.sb
  outside c hc := (h'.outside c (h.sb ▸ hc)).trans (h.outside c hc)
  node := h'.node

theorem Sound.aligned_bytes (h : Sound s) (hi : s.sb.Inum i) (ht : (s.inode i).type = .dir) :
    direntSize ∣ (s.bytes i).length := by
  rw [length_bytes]
  exact h.aligned i hi ht

theorem Sound.incLink (h : Sound s) (hi : s.sb.Inum i) :
    Acts s (s.incLink i) (addLink s.node i) := by
  have hacts := (h.blocks.incLink hi).acts h hi (h.aligned_bytes hi)
  rw [addLink, node_of_inum hi]
  exact hacts

theorem Sound.decLink (h : Sound s) (hi : s.sb.Inum i) :
    Acts s (s.decLink i) (subLink s.node i) := by
  have hacts := (h.blocks.decLink hi).acts h hi (h.aligned_bytes hi)
  rw [subLink, node_of_inum hi]
  exact hacts

theorem free_incLink : (s.incLink i).free = s.free := free_congr rfl rfl

theorem free_decLink : (s.decLink i).free = s.free := free_congr rfl rfl

theorem bytes_setNlink {g : Inode → Nat} :
    (s.setInode i fun d => { d with nlink := g d }).bytes j = s.bytes j := by
  have hr : Retagged s (s.setInode i fun d => { d with nlink := g d }) i :=
    retagged_setInode fun _ _ => rfl
  have hsize : ((s.setInode i fun d => { d with nlink := g d }).inode j).size = (s.inode j).size := by
    by_cases hj : j = i
    · subst hj
      rw [inode_setInode]
    · rw [hr.inode j hj]
  rw [Img.bytes, Img.bytes, hsize]
  exact List.map_congr_left fun o _ => hr.byte j o

theorem bytes_incLink : (s.incLink i).bytes j = s.bytes j := bytes_setNlink

theorem bytes_decLink : (s.decLink i).bytes j = s.bytes j := bytes_setNlink

/-! ## Writing entries -/

theorem cost_of_dir (h : Sound s) (hd : s.IsDir d) :
    (s.file d).cost = dirCost (s.node d).ents.length := by
  rw [File.cost, dirCost, h.mul_length hd]
  show slots (divceil (s.bytes d).length bsize) = _
  rw [length_bytes]

theorem writeEntry_spec (h : Sound s) (hd : s.IsDir d) (hj : j ≤ (s.node d).ents.length)
    (hmax : direntSize * (j + 1) ≤ maxFileSize) (hbuf : buf.length = direntSize) :
    Ends (iwrite d buf (direntSize * j)) s
      (fun r t => r = some direntSize ∧ Acts s t (setEnt s.node d j (.ofBytes buf)) ∧
        t.free + dirCost (max (s.node d).ents.length (j + 1)) =
          s.free + dirCost (s.node d).ents.length ∧
        ∀ i, i ≠ d → s.sb.Inum i → t.bytes i = s.bytes i)
      (fun _ t => s.free + dirCost (s.node d).ents.length <
        dirCost (max (s.node d).ents.length (j + 1)) ∧ Halted s t) := by
  have hsize := h.mul_length hd
  have hoff : direntSize * j ≤ (s.inode d).size := by
    rw [← hsize]
    exact Nat.mul_le_mul_left _ hj
  have hend : direntSize * j + buf.length = direntSize * (j + 1) := by rw [hbuf, Nat.mul_add_one]
  have hgrown : max (s.inode d).size (direntSize * j + buf.length) =
      direntSize * max (s.node d).ents.length (j + 1) := by
    rw [hend, ← hsize, Nat.mul_max_mul_left]
  have htype : (s.inode d).type ≠ .dev ∧ (s.inode d).type ≠ .free := by
    rw [hd.2]
    decide
  have hents : entries (overwrite (s.bytes d) (direntSize * j) buf) =
      setAt (s.node d).ents j (.ofBytes buf) := by
    rw [ents_of_dir hd, entries_overwrite (h.aligned_bytes hd.1 hd.2) _ hbuf]
    rwa [length_ents hd, ← length_bytes] at hj
  have hlen : (overwrite (s.bytes d) (direntSize * j) buf).length =
      direntSize * max (s.node d).ents.length (j + 1) := by
    rw [length_overwrite (by rwa [length_bytes]), length_bytes, hgrown]
  have hone : direntSize * j % bsize + buf.length ≤ bsize := by
    rw [hbuf]
    unfold direntSize bsize
    omega
  refine ((iwrite_spec h.blocks hd.1 htype hoff (hend ▸ hmax)).and
    (iwrite_halted h.blocks hd.1 hoff (hend ▸ hmax) hone)).mono ?_ ?_
  · rintro r t ⟨⟨rfl, hbecomes⟩, -⟩
    refine ⟨by rw [hbuf], ?_, ?_, fun i hne hi => congrArg File.data (hbecomes.other i hne hi)⟩
    · have hacts := hbecomes.acts h hd.1 fun _ => by
        dsimp only
        rw [hlen]
        exact Nat.dvd_mul_right ..
      have hnode : File.node { s.file d with data := overwrite (s.bytes d) (direntSize * j) buf } =
          { s.node d with ents := setAt (s.node d).ents j (.ofBytes buf) } := by
        rw [← hents, node_of_inum hd.1]
        simp only [File.node, Img.file, hd.2, if_true]
      rw [hnode] at hacts
      exact hacts
    · have hfree := hbecomes.free
      rw [cost_of_dir h hd, File.cost] at hfree
      dsimp only at hfree
      rwa [hlen] at hfree
  · rintro e t ⟨hfree, hhalt⟩
    rw [cost_of_dir h hd, hgrown] at hfree
    exact ⟨hfree, hhalt⟩

theorem freeSlot_rounds (h : Sound s) (hd : s.IsDir d) (name : Name) :
    freeSlot d name (s.rounds d) 0 s =
      (.ok ((freeIdx name (s.node d).ents 0).map (direntSize * ·)), s) := by
  refine freeSlot_eq h hd name _ 0 ?_ (Nat.zero_le _)
  rw [Img.rounds, length_ents hd]
  omega

theorem daddent_of_none (h : Sound s) (hd : s.IsDir d) (hplace : s.place d name = none) :
    daddent d name ip s = (.ok false, s) := by
  rw [daddent, gets_bind, bind_of_eq (freeSlot_rounds h hd name)]
  rw [Img.place] at hplace
  cases hidx : freeIdx name (s.node d).ents 0 with
  | none => rfl
  | some j =>
    rw [hidx] at hplace
    have hmax : maxFileSize < direntSize * j + (Dirent.toBytes ⟨ip, name⟩).length := by
      rw [length_toBytes, ← Nat.mul_add_one]
      simpa using hplace
    simp only [Option.map_some]
    rw [bind_of_eq (iwrite_eq_none hmax)]
    rfl

theorem place_eq_some (hplace : s.place d name = some j) :
    freeIdx name (s.node d).ents 0 = some j ∧ direntSize * (j + 1) ≤ maxFileSize ∧
      j ≤ (s.node d).ents.length := by
  obtain ⟨hidx, hmax⟩ := Option.filter_eq_some_iff.mp hplace
  obtain ⟨m, hm, hle, -⟩ := freeIdx_eq_some hidx
  refine ⟨hidx, by simpa using hmax, by omega⟩

/-- **What `daddent` does** with a place for the entry. -/
theorem daddent_of_some (h : Sound s) (hd : s.IsDir d) (hip : s.sb.Inum ip)
    (hplace : s.place d name = some j) :
    Ends (daddent d name ip) s
      (fun r t => r = true ∧ Acts s t (added s.node d j name ip) ∧
        t.free + dirCost (max (s.node d).ents.length (j + 1)) =
          s.free + dirCost (s.node d).ents.length ∧
        ∀ i, i ≠ d → s.sb.Inum i → t.bytes i = s.bytes i)
      (fun _ t => s.free + dirCost (s.node d).ents.length <
        dirCost (max (s.node d).ents.length (j + 1)) ∧ Halted s t) := by
  obtain ⟨hidx, hmax, hj⟩ := place_eq_some hplace
  rw [daddent, ends_gets_bind]
  refine Ends.bind_eq (freeSlot_rounds h hd name) ?_
  simp only [hidx, Option.map_some]
  refine (writeEntry_spec h hd hj hmax (length_toBytes _)).bind ?_
  rintro r t ⟨rfl, hacts, hfree, hbytes⟩
  rw [if_pos rfl, ends_modify_bind, ends_pure, added]
  split
  · exact ⟨rfl, hacts, hfree, hbytes⟩
  · have hlink := hacts.sound.incLink (hacts.sb ▸ hip)
    rw [hacts.node] at hlink
    refine ⟨rfl, hacts.trans hlink, free_incLink.symm ▸ hfree, fun i hne hi => ?_⟩
    rw [bytes_incLink, hbytes i hne hi]

theorem rewriteEntry_eq (h : Sound s) (hd : s.IsDir d) (hj : j < (s.node d).ents.length)
    (hbuf : buf.length = direntSize) :
    ∃ t, iwrite d buf (direntSize * j) s = (.ok (some direntSize), t) ∧
      Acts s t (setEnt s.node d j (.ofBytes buf)) ∧ t.free = s.free ∧
      ∀ i, i ≠ d → s.sb.Inum i → t.bytes i = s.bytes i := by
  have hmax : direntSize * (j + 1) ≤ maxFileSize :=
    calc direntSize * (j + 1) ≤ direntSize * (s.node d).ents.length := Nat.mul_le_mul_left _ hj
      _ = (s.inode d).size := h.mul_length hd
      _ ≤ maxFileSize := h.blocks.size_le hd.1
  have hspec := writeEntry_spec h hd (Nat.le_of_lt hj) hmax hbuf
  rw [Nat.max_eq_left hj] at hspec
  obtain ⟨r, t, heq, rfl, hacts, hfree, hbytes⟩ :=
    (hspec.mono (fun _ _ hq => hq) fun _ _ he => absurd he.1 (by omega)).exists_eq
  exact ⟨t, heq, hacts, Nat.add_right_cancel hfree, hbytes⟩

/-! ## `dmkparlink` -/

theorem dmkparlink_of_not_dir {pip cip : Nat}
    (h : (s.inode pip).type ≠ .dir ∨ (s.inode cip).type ≠ .dir) :
    dmkparlink pip cip s = (.ok false, s) := by
  rw [dmkparlink, gets_bind, id]
  by_cases hp : (s.inode pip).type ≠ .dir
  · rw [if_pos hp]
    rfl
  · rw [if_neg hp, if_pos (h.resolve_left hp)]
    rfl

theorem find_lt {r : Option Nat} {off : Nat} (h : s.find d name = some (r, off)) :
    ∃ j, j < (s.node d).ents.length ∧ off = direntSize * j := by
  obtain ⟨k, e, hk, -, -, hoff, -⟩ := findEntry_eq_some h
  exact ⟨k, (List.getElem?_eq_some_iff.mp hk).1, by rw [hoff, Nat.zero_add]⟩

/-- **What `dmkparlink` does** for two directories. -/
theorem dmkparlink_eq {pip cip : Nat} (h : Sound s) (hp : s.IsDir pip) (hc : s.IsDir cip)
    {r : Option Nat} (hfind : s.find cip dotdot = some (r, direntSize * j)) :
    ∃ t, dmkparlink pip cip s = (.ok true, t) ∧
      Acts s t (addLink (setEnt s.node cip j (Dirent.stored ⟨pip, dotdot⟩)) pip) ∧
      t.free = s.free := by
  obtain ⟨j', hj, hoff⟩ := find_lt hfind
  obtain rfl : j = j' := by
    unfold direntSize at hoff
    omega
  obtain ⟨t, heq, hacts, hfree, -⟩ := rewriteEntry_eq h hc hj (length_toBytes ⟨pip, dotdot⟩)
  have hlink := hacts.sound.incLink (hacts.sb ▸ hp.1)
  rw [hacts.node] at hlink
  refine ⟨t.incLink pip, ?_, hacts.trans hlink, free_incLink.trans hfree⟩
  rw [dmkparlink, gets_bind]
  simp only [id, hp.2, hc.2, ne_eq, not_true, if_false]
  rw [bind_of_eq (dlookup_eq h hc dotdot), hfind]
  dsimp only
  rw [bind_of_eq heq, if_pos rfl]
  rfl

/-! ## `iunlink` -/

/-- Beside the nodes: files that are still there have their bytes, and the blocks
of `i` are accounted for. -/
structure Spares (s t : Img) (i : Nat) : Prop where
  bytes : ∀ c, s.sb.Inum c → (t.node c).type ≠ .free → t.bytes c = s.bytes c
  free : t.free + (t.file i).cost = s.free + (s.file i).cost
  le : s.free ≤ t.free

theorem cost_congr (h : t.bytes i = s.bytes i) : (t.file i).cost = (s.file i).cost := by
  rw [File.cost, File.cost]
  show slots (divceil (t.bytes i).length bsize) = slots (divceil (s.bytes i).length bsize)
  rw [h]

theorem Spares.of_links (hsb : u.sb = s.sb) (hbytes : ∀ c, u.bytes c = s.bytes c)
    (hfree : u.free = s.free) (h : Spares u t i) : Spares s t i where
  bytes c hc htype := (h.bytes c (hsb ▸ hc) htype).trans (hbytes c)
  free := by rw [h.free, hfree, cost_congr (hbytes i)]
  le := hfree ▸ h.le

theorem Spares.refl : Spares s s i := ⟨fun _ _ _ => rfl, rfl, Nat.le_refl _⟩

theorem reap_eq (h : Sound s) (hi : s.sb.Inum i) (hnlink : (s.inode i).nlink = 0) :
    ∃ t, (if (s.inode i).type ≠ .dev then do
        let _ ← itruncate i 0
        ifree i
      else ifree i : FsM Unit) s = (.ok (), t) ∧ Acts s t (update s.node i .gone) ∧
        Spares s t i := by
  -- both ways the file is one that is free and has no bytes
  obtain ⟨t, heq, hbecomes⟩ : ∃ t, (if (s.inode i).type ≠ .dev then do
        let _ ← itruncate i 0
        ifree i
      else ifree i : FsM Unit) s = (.ok (), t) ∧ Becomes s t i ⟨.free, (s.inode i).nlink, []⟩ := by
    by_cases hdev : (s.inode i).type = .dev
    · have hsize := h.blocks.empty i hi (.inr hdev)
      have hbecomes := h.blocks.ifree hi hsize
      rw [if_neg (not_not_intro hdev)]
      refine ⟨_, ifree_eq hi, ?_⟩
      rwa [Img.file, List.length_eq_zero_iff.mp (length_bytes.trans hsize)] at hbecomes
    · obtain ⟨t, heq, hbecomes⟩ := itruncate_spec h.blocks hi hdev
      have hit : t.sb.Inum i := hbecomes.sb ▸ hi
      have hsize : (t.inode i).size = 0 := by
        rw [← length_bytes]
        exact congrArg (fun f => f.data.length) hbecomes.self
      have hlast := hbecomes.blocks.ifree hit hsize
      rw [hbecomes.self] at hlast
      rw [if_pos hdev]
      exact ⟨_, by rw [bind_of_eq heq]; exact ifree_eq hit, hbecomes.trans hlast⟩
  have hacts := hbecomes.acts h hi (fun ht => by cases ht)
  rw [hnlink] at hacts
  refine ⟨t, heq, hacts, fun c hc htype => ?_, by rw [hbecomes.self, hbecomes.free], ?_⟩
  · have hne : c ≠ i := by
      rintro rfl
      rw [hacts.node, update_self] at htype
      exact htype rfl
    exact congrArg File.data (hbecomes.other c hne hc)
  · have hfree := hbecomes.free
    have hnone : File.cost ⟨.free, (s.inode i).nlink, []⟩ = 0 := rfl
    omega

theorem dropLink_rest (h : Sound s) (hd : s.sb.Inum d) (hi : s.sb.Inum i) (up : Bool) :
    ∃ t, (do
        modify fun img => if up then img.decLink d else img
        modify fun img => img.decLink i
        let f ← gets fun img => img.inode i
        if f.nlink = 0 then
          if f.type ≠ .dev then do
            let _ ← itruncate i 0
            ifree i
          else ifree i
        else pure () : FsM Unit) s = (.ok (), t) ∧ Acts s t (dropped s.node up d i) ∧
        Spares s t i := by
  have hfirst : Acts s (if up then s.decLink d else s) (if up then subLink s.node d else s.node) ∧
      (if up then s.decLink d else s).free = s.free ∧
      ∀ c, (if up then s.decLink d else s).bytes c = s.bytes c := by
    cases up with
    | true => exact ⟨h.decLink hd, free_decLink, fun _ => bytes_decLink⟩
    | false => exact ⟨.refl h, rfl, fun _ => rfl⟩
  obtain ⟨hfirst, hfree, hbytes⟩ := hfirst
  simp only [modify_bind, gets_bind]
  set u := if up then s.decLink d else s
  have hsecond := hfirst.sound.decLink (hfirst.sb ▸ hi)
  rw [hfirst.node] at hsecond
  have hacts := hfirst.trans hsecond
  have hspares : ∀ {t}, Spares (u.decLink i) t i → Spares s t i :=
    Spares.of_links hacts.sb (fun c => bytes_decLink.trans (hbytes c)) (free_decLink.trans hfree)
  have hi' : (u.decLink i).sb.Inum i := hacts.sb ▸ hi
  have hnlink : ((u.decLink i).inode i).nlink =
      (subLink (if up then subLink s.node d else s.node) i i).nlink := by
    rw [← hacts.node, node_of_inum hi']
    rfl
  rw [dropped, reap, ← hnlink]
  split
  next h0 =>
    obtain ⟨t, heq, hlast, hrest⟩ := reap_eq hacts.sound hi' h0
    rw [hacts.node] at hlast
    exact ⟨t, heq, hacts.trans hlast, hspares hrest⟩
  next => exact ⟨_, rfl, hacts, hspares .refl⟩

/-- **What `dropLink` does.** -/
theorem dropLink_eq (h : Sound s) (hd : s.sb.Inum d) (hi : s.sb.Inum i) :
    ∃ t, dropLink d i s = (.ok (), t) ∧
      Acts s t (dropped s.node (upward s.sb s.node d i) d i) ∧ Spares s t i := by
  obtain ⟨t, heq, hspec⟩ := dropLink_rest h hd hi (upward s.sb s.node d i)
  refine ⟨t, ?_, hspec⟩
  rw [← heq, dropLink, gets_bind]
  by_cases hdir : (s.inode i).type = .dir
  · have hidir : s.IsDir i := ⟨hi, hdir⟩
    have hup : upward s.sb s.node d i = decide (inodeOf (s.find i dotdot) = some d) := by
      have htype : (s.node i).type = .dir := by rw [type_of_inum hi, hdir]
      exact decide_eq_decide.mpr (and_iff_right htype)
    rw [if_pos hdir, bind_of_eq (dlookup_eq h hidir dotdot), hup]
    rfl
  · have hup : upward s.sb s.node d i = false := by
      rw [upward, type_of_inum hi]
      simp [hdir]
    rw [if_neg hdir, hup]
    rfl

theorem unlinkEntry_of_dot {off : Nat} (h : sameName name dot = true ∨ sameName name dotdot = true) :
    unlinkEntry d i name off s = (.ok false, s) := by
  rw [unlinkEntry, if_pos h]
  rfl

theorem cost_setEnt {e : Dirent} (hs : Sound s) (ht : Sound t) (hd : s.IsDir d)
    (hj : j < (s.node d).ents.length) (hnode : t.node = setEnt s.node d j e) :
    (t.file d).cost = (s.file d).cost := by
  have hd' : t.IsDir d := by
    rw [isDir_iff, hnode, type_setEnt]
    exact isDir_iff.mp hd
  rw [cost_of_dir hs hd, cost_of_dir ht hd', hnode, ents_setEnt, if_pos rfl,
    length_setAt (Nat.le_of_lt hj), Nat.max_eq_left hj]

/-- What `iunlink` spares: the files that are still there, but for the directory
that it writes. -/
structure Leaves (s t : Img) (d i : Nat) : Prop where
  bytes : ∀ c, c ≠ d → s.sb.Inum c → (t.node c).type ≠ .free → t.bytes c = s.bytes c
  free : t.free + (t.file i).cost = s.free + (s.file i).cost
  le : s.free ≤ t.free

/-- **What `unlinkEntry` does** with an entry other than `.` and `..`. -/
theorem unlinkEntry_eq (h : Sound s) (hd : s.IsDir d) (hi : s.sb.Inum i)
    (hj : j < (s.node d).ents.length)
    (hname : ¬ (sameName name dot = true ∨ sameName name dotdot = true)) :
    ∃ t, unlinkEntry d i name (direntSize * j) s = (.ok true, t) ∧
      Acts s t (unlinked s.sb s.node d j i) ∧ Leaves s t d i := by
  obtain ⟨t, heq, hacts, hfree, hbytes⟩ :=
    rewriteEntry_eq h hd hj (List.length_replicate (n := direntSize))
  rw [ofBytes_replicate] at hacts
  obtain ⟨u, heq', hdrop, hspares⟩ := dropLink_eq hacts.sound (hacts.sb ▸ hd.1) (hacts.sb ▸ hi)
  rw [hacts.node, hacts.sb] at hdrop
  have hcost : (t.file i).cost = (s.file i).cost := by
    by_cases hid : i = d
    · rw [hid]
      exact cost_setEnt h hacts.sound hd hj hacts.node
    · exact cost_congr (hbytes i hid hi)
  refine ⟨u, ?_, hacts.trans hdrop, fun c hcd hc htype => ?_, ?_, hfree ▸ hspares.le⟩
  · rw [unlinkEntry, if_neg hname, bind_of_eq heq, if_pos rfl, bind_of_eq heq']
    rfl
  · rw [hspares.bytes c (hacts.sb ▸ hc) htype, hbytes c hcd hc]
  · rw [hspares.free, hfree, hcost]

end Yaos.Fs
