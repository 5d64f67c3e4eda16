import Yaos.Fs.Shape

/-!
# What `put`, `get` and `cp` transfer

`do_put` writes what it reads until a short read, and `do_get` writes it out
again. `do_cp` copies a file, unless the destination is the source: that one has
lost its bytes before they are read. Both make the destination with `icreat`,
which drops the result of `daddent`: in a full directory the file has no name.
-/

namespace Yaos.Fs

open Yaos.Lib Prog

variable {s t u : Img} {d i j c x ip sip dip rp : Nat} {name nm path spath dpath : Name}

/-! ## Names after a new file -/

theorem site_plain (hplain : Plain name) (hne : name ≠ []) (hnone : inodeOf (s.find d name) = none) :
    s.site d name = some (d, name.take dirsiz) := by
  rw [Img.site, walk_plain hplain, Option.filter_some, if_pos]
  rw [decide_eq_true_eq, find_take]
  exact ⟨take_ne_nil hne, hnone⟩

theorem HasRoom.of_place (hplace : s.place d name = some j) : s.HasRoom d := by
  obtain ⟨hidx, hmax, hle⟩ := place_eq_some hplace
  obtain ⟨m, hm, -, hdead, -⟩ := freeIdx_eq_some hidx
  rw [Nat.zero_add] at hm
  subst hm
  rcases Nat.lt_or_ge j (s.node d).ents.length with hlt | hge
  · have hj := List.getElem?_eq_getElem hlt
    exact .inl ⟨_, List.mem_of_getElem? hj, hdead _ hj⟩
  · obtain rfl : j = (s.node d).ents.length := Nat.le_antisymm hle hge
    exact .inr hmax

theorem Made.isDir (hmade : Made s t .file rp path ip) (c : Nat) : t.IsDir c ↔ s.IsDir c := by
  obtain ⟨d, name, -, hnode⟩ := hmade.node
  rw [isDir_iff, isDir_iff, hnode, type_created]
  split
  next hc =>
    rw [hc, hmade.was]
    decide
  next => rfl

theorem Made.alike (hmade : Made s t .file rp path ip) (hk : Kept s t)
    (hsite : s.site rp path = some (d, name)) (hroom : ¬ s.HasRoom d) : Alike s t := by
  obtain ⟨d', name', hsite', hnode⟩ := hmade.node
  cases hsite.symm.trans hsite'
  have hplace : s.place d name = none := by
    cases hplace : s.place d name with
    | none => rfl
    | some j => exact absurd (HasRoom.of_place hplace) hroom
  refine ⟨hk.sb, hmade.isDir, fun c hc => ?_⟩
  have hne : c ≠ ip := by
    rintro rfl
    rw [isDir_iff, hmade.was] at hc
    cases hc
  rw [hnode, hplace, ents_created_of_ne hne]
  split
  next hcd => rw [hcd]; rfl
  next => rfl

section Room

variable (h : Whole s) (hk : Kept s t) (hrp : s.IsDir rp) (hmade : Made s t .file rp path ip)
  (h0 : 0 ∉ path) (hsite : s.site rp path = some (d, name)) (hroom : s.HasRoom d)

include h hk hrp hmade h0 hsite hroom

/-- What is found after a file has been made: the file, and what was found before. -/
theorem Made.find (hc : s.IsDir c) (hnm : nm ≠ []) : inodeOf (t.find c nm) = some x ↔
    (c = d ∧ sameName nm name = true ∧ x = ip) ∨ inodeOf (s.find c nm) = some x := by
  have ht : Whole t := h.made hmade hrp (.inl rfl) hk h0 fun d' name' hsite' => by
    cases hsite.symm.trans hsite'
    exact hroom
  obtain ⟨d', name', hsite', hnode⟩ := hmade.node
  cases hsite.symm.trans hsite'
  obtain ⟨hwalk, hnew⟩ := Option.filter_eq_some_iff.mp hsite
  obtain ⟨hname, hnone⟩ := of_decide_eq_true hnew
  have hd := site_isDir hrp hsite
  have hip : s.sb.Inum ip := hk.sb ▸ hmade.inum
  obtain ⟨j, hplace⟩ := HasRoom.place h.tidy h.grown.rows hd hname hnone hroom
  have hv := place_vacant h.tidy h.grown.rows hd hname hnone hplace
  have hst := stores_of_new h.tidy h.grown.rows hd hname hnone hip
    fun hmem => h0 (mem_of_mem_walk _ _ _ hwalk 0 hmem)
  have hne : c ≠ ip := by
    rintro rfl
    rw [isDir_iff, hmade.was] at hc
    cases hc
  -- the entries are those before, and the new one
  have hents : ∀ k, (t.node c).ents[k]? =
      if c = d ∧ k = j then some ⟨ip, name.take dirsiz⟩ else (s.node c).ents[k]? := by
    intro k
    rw [hnode, hplace, ents_created_of_ne hne]
    by_cases hcd : c = d
    · subst hcd
      rw [if_pos rfl, Option.elim_some, getElem?_setAt hv.le, hst.stored]
      simp
    · rw [if_neg hcd, if_neg fun hboth => hcd hboth.1]
  rw [inodeOf_find ht.grown.rows ((hmade.isDir c).mpr hc) hnm, inodeOf_find h.grown.rows hc hnm, hk.sb]
  constructor
  · rintro ⟨hx, k, nm', hk', hsame⟩
    rw [hents] at hk'
    split at hk'
    next hboth =>
      cases hk'
      refine .inl ⟨hboth.1, ?_, rfl⟩
      rwa [sameName_comm, sameName_take, sameName_comm] at hsame
    next => exact .inr ⟨hx, k, nm', hk', hsame⟩
  · rintro (⟨rfl, hsame, rfl⟩ | ⟨hx, k, nm', hk', hsame⟩)
    · refine ⟨hip, j, name.take dirsiz, by rw [hents, if_pos ⟨rfl, rfl⟩], ?_⟩
      rwa [sameName_comm, sameName_take, sameName_comm]
    · refine ⟨hx, k, nm', ?_, hsame⟩
      rw [hents, if_neg, hk']
      rintro ⟨rfl, rfl⟩
      exact Nat.ne_of_gt hx.1 (hv.dead _ hk')

theorem Made.resolve {p : Name} : t.resolve p = some x ↔ s.resolve p = some x ∨
    ∃ nm, s.spot p = some (d, nm) ∧ nm ≠ [] ∧ sameName nm name = true ∧ x = ip := by
  have hfind := fun (c x : Nat) (nm : Name) (hc : s.IsDir c) (hnm : nm ≠ []) =>
    Made.find h hk hrp hmade h0 hsite hroom (x := x) hc hnm
  -- the file is not on any way
  have hwalk : t.spot p = s.spot p := by
    refine walk_congr (fun c x nm hc hnm => ?_) _ _ _ h.tidy.isDir_root
    rw [hfind c x nm hc hnm, hmade.isDir]
    constructor
    · rintro ⟨⟨-, -, rfl⟩ | hfound, hdir⟩
      · rw [isDir_iff, hmade.was] at hdir
        cases hdir
      · exact ⟨hfound, hdir⟩
    · rintro ⟨hfound, hdir⟩
      exact ⟨.inr hfound, hdir⟩
  rw [Img.resolve, Img.resolve, hwalk]
  cases hplace : s.spot p with
  | none => simp
  | some place =>
    obtain ⟨c, nm⟩ := place
    have hc := walk_isDir _ _ _ h.tidy.isDir_root hplace
    rw [Option.bind_some, Option.bind_some, Img.at, Img.at]
    by_cases hnm : nm = []
    · subst hnm
      rw [if_pos rfl, if_pos rfl]
      refine ⟨.inl, ?_⟩
      rintro (heq | ⟨nm', heq, hnm', -⟩)
      · exact heq
      · cases heq
        exact absurd rfl hnm'
    · rw [if_neg hnm, if_neg hnm, hfind c x nm hc hnm]
      constructor
      · rintro (⟨rfl, hsame, rfl⟩ | hfound)
        · exact .inr ⟨nm, rfl, hnm, hsame, rfl⟩
        · exact .inl hfound
      · rintro (hfound | ⟨nm', heq, -, hsame, rfl⟩)
        · exact .inr hfound
        · cases heq
          exact .inl ⟨rfl, hsame, rfl⟩

end Room

/-! ## `put` and `get` -/

theorem resolve_of_site (hsite : s.site root path = some (d, name)) : s.resolve path = none := by
  obtain ⟨hwalk, hnew⟩ := Option.filter_eq_some_iff.mp hsite
  obtain ⟨hname, hnone⟩ := of_decide_eq_true hnew
  rw [Img.resolve, Img.spot, hwalk, Option.bind_some, Img.at, if_neg hname]
  exact hnone

theorem doGet_eq (h : Tidy s) (path : Name) : doGet path s =
    (.ok ((s.resolve path).elim (.failure, []) fun ip => (.success, s.bytes ip)), s) := by
  rw [doGet, bind_of_eq (lookup_eq h path)]
  cases hr : s.resolve path with
  | none => rfl
  | some ip =>
    have hfuel : (s.inode ip).size < 0 + bufSize * ((s.inode ip).size / bufSize + 1) := by
      unfold bufSize
      omega
    dsimp only
    rw [gets_bind]
    exact getLoop_eq h (resolve_inum h hr) _ 0 [] hfuel

/-- `do_put` has a file to write to: one that is there, or one that it makes. -/
def Img.Opens (s : Img) (path : Name) : Prop :=
  (∃ ip, s.resolve path = some ip ∧ (s.inode ip).type = .file) ∨
    ∃ d name, s.site root path = some (d, name)

def Img.Reaches (s : Img) (path : Name) : Prop :=
  (∃ ip, s.resolve path = some ip ∧ (s.inode ip).type = .file) ∨
    ∃ d name, s.site root path = some (d, name) ∧ s.HasRoom d

theorem Img.Reaches.opens (h : s.Reaches path) : s.Opens path := by
  rcases h with hfile | ⟨d, name, hsite, -⟩
  · exact .inl hfile
  · exact .inr ⟨d, name, hsite⟩

variable {reads : List (Option (List UInt8))} {chunks : List (List UInt8)}

theorem doPut_fails (h : Tidy s) (hno : ¬ s.Opens path) : doPut path reads s = (.ok .failure, s) := by
  rw [doPut, bind_of_eq (lookup_eq h path)]
  cases hr : s.resolve path with
  | none =>
    have hsite : s.site root path = none := by
      cases hsite : s.site root path with
      | none => rfl
      | some place => exact absurd (.inr ⟨place.1, place.2, hsite⟩) hno
    have hcreat : creatAt root path .file s = (.ok none, s) := by
      rw [creatAt_eq h h.isDir_root, hsite]
      rfl
    dsimp only
    rw [bind_of_eq hcreat]
    rfl
  | some ip =>
    have hfile : (s.inode ip).type ≠ .file := fun hfile => hno (.inl ⟨ip, hr, hfile⟩)
    dsimp only
    rw [gets_bind, if_pos hfile]
    rfl

/-- With blocks and an inode for the file `do_put` succeeds. -/
theorem doPut_succeeds (h : Tidy s) (hopen : s.Opens path) (hreads : none ∉ reads)
    (hblocks : (Cmd.put path reads).need s ≤ s.free) (hinode : s.resolve path = none → s.HasInode) :
    ∃ t, doPut path reads s = (.ok .success, t) := by
  rw [Cmd.need] at hblocks
  rcases hopen with ⟨ip, hr, htype⟩ | ⟨d, name, hsite⟩
  · obtain ⟨t, heq, hedit, hfree, htype', hsize, -⟩ := itruncate_edits h (resolve_inum h hr) htype
    rw [fileNeed_of_file hr htype] at hblocks
    obtain ⟨st, u, hput, -, -, hst⟩ := (putLoop_sure hedit.tidy (hedit.inum (resolve_inum h hr)) htype'
      hsize reads).returns (by omega)
    refine ⟨u, ?_⟩
    rw [doPut, bind_of_eq (lookup_eq h path), hr]
    dsimp only
    rw [gets_bind, if_neg (not_not.mpr htype), bind_of_eq heq, hput, hst hreads]
  · have hr := resolve_of_site hsite
    have hnew : ∀ ip, s.resolve path = some ip → (s.inode ip).type ≠ .file := by simp [hr]
    rw [fileNeed_of_new hnew] at hblocks
    obtain ⟨ip, t, heq⟩ := creatAt_returns h h.isDir_root (.inl rfl) hsite
      (show 2 ≤ s.free by omega) (hinode hr)
    obtain ⟨hkept, hfree, hmade⟩ := Ends.returned (creatAt_safe h h.isDir_root (.inl rfl) path) heq
    have hmade := hmade ip rfl
    have hcost : createNeed .file = 2 := rfl
    obtain ⟨st, u, hput, -, -, hst⟩ := (putLoop_sure hkept.tidy hmade.inum
      ((type_of_inum hmade.inum).symm.trans hmade.kind) (size_of_bytes (hmade.empty rfl))
      reads).returns (by omega)
    refine ⟨u, ?_⟩
    rw [doPut, bind_of_eq (lookup_eq h path), hr]
    dsimp only
    rw [bind_of_eq heq]
    dsimp only
    rw [hput, hst hreads]

/-- All reads but the last fill the buffer. -/
def FullReads (chunks : List (List UInt8)) : Prop := ∀ c ∈ chunks.dropLast, c.length = bufSize

instance : Decidable (FullReads chunks) := inferInstanceAs (Decidable (∀ c ∈ chunks.dropLast, _))

theorem putBytes_cons {c : List UInt8} (hc : c.length ≤ bufSize) :
    putBytes (some c :: reads) = if c.length < bufSize then c else c ++ putBytes reads := by
  rw [putBytes, List.take_of_length_le hc]

theorem length_putBytes (hchunks : ∀ c ∈ chunks, c ≠ [] ∧ c.length ≤ bufSize) :
    (putBytes (chunks.map some)).length ≤ chunks.flatten.length := by
  induction chunks with
  | nil => exact Nat.le_refl _
  | cons c chunks ih =>
    rw [List.forall_mem_cons] at hchunks
    have hrest := ih hchunks.2
    rw [List.map_cons, putBytes_cons hchunks.1.2, List.flatten_cons, List.length_append]
    split
    · exact Nat.le_add_right _ _
    · rw [List.length_append]
      omega

/-- `do_put` reads all of the input if no read but the last is short. -/
theorem putBytes_eq_iff (hchunks : ∀ c ∈ chunks, c ≠ [] ∧ c.length ≤ bufSize) :
    putBytes (chunks.map some) = chunks.flatten ↔ FullReads chunks := by
  induction chunks with
  | nil => simp [putBytes, FullReads]
  | cons c chunks ih =>
    rw [List.forall_mem_cons] at hchunks
    obtain ⟨⟨-, hc⟩, hchunks⟩ := hchunks
    rw [List.map_cons, putBytes_cons hc, List.flatten_cons]
    cases chunks with
    | nil => simp [putBytes, FullReads]
    | cons c' chunks =>
      have hnext : (c' :: chunks).flatten ≠ [] := by simp [(hchunks c' (by simp)).1]
      have hfull : FullReads (c :: c' :: chunks) ↔ c.length = bufSize ∧ FullReads (c' :: chunks) :=
        List.forall_mem_cons
      rw [hfull, ← ih hchunks]
      split
      next hshort =>
        refine iff_of_false (fun heq => hnext ?_) fun hboth => by omega
        exact List.append_right_eq_self.mp heq.symm
      next hlong =>
        rw [List.append_cancel_left_eq]
        exact ⟨fun heq => ⟨by omega, heq⟩, And.right⟩

/-- What is put is got: if it fits a file. What does not is refused. -/
def PutGet (s : Img) (path : Name) (chunks : List (List UInt8)) : Prop :=
  if chunks.flatten.length ≤ maxFileSize then
    ∃ t, doPut path (chunks.map some) s = (.ok .success, t) ∧
      doGet path t = (.ok (.success, chunks.flatten), t)
  else status (.put path (chunks.map some)) s = .failure

def PutOk (s : Img) (path : Name) (chunks : List (List UInt8)) : Prop :=
  if chunks.flatten.length ≤ maxFileSize then s.Reaches path ∧ FullReads chunks else ¬ s.Opens path

theorem Filled.get {bytes out : List UInt8} (hfill : Filled s t path bytes) (h : Whole s)
    (hk : Kept s t) (h0 : 0 ∉ path) :
    doGet path t = (.ok (.success, out), t) ↔ s.Reaches path ∧ bytes = out := by
  rw [doGet_eq hk.tidy]
  cases hfill with
  | old ip hr htype hnode hbytes =>
    have hreach : s.Reaches path := .inl ⟨ip, hr, htype⟩
    rw [(Alike.of_node hk.sb hnode).resolve h.tidy, hr, Option.elim_some, hbytes]
    simp [hreach]
  | new u ip hr hu hmade hnode hbytes =>
    have halike : Alike u t := .of_node (hk.sb.trans hu.sb.symm) hnode
    obtain ⟨d, name, hsite, -⟩ := hmade.node
    obtain ⟨hwalk, hnew⟩ := Option.filter_eq_some_iff.mp hsite
    rw [halike.resolve hu.tidy]
    by_cases hroom : s.HasRoom d
    · have hres : u.resolve path = some ip :=
        (Made.resolve h hu h.tidy.isDir_root hmade h0 hsite hroom).mpr
          (.inr ⟨name, hwalk, (of_decide_eq_true hnew).1, decide_eq_true rfl, rfl⟩)
      have hreach : s.Reaches path := .inr ⟨d, name, hsite, hroom⟩
      rw [hres, Option.elim_some, hbytes]
      simp [hreach]
    · rw [(hmade.alike hu hsite hroom).resolve h.tidy, hr, Option.elim_none]
      refine iff_of_false (by simp) ?_
      rintro ⟨⟨ip', hr', -⟩ | ⟨d', name', hsite', hroom'⟩, -⟩
      · rw [hr] at hr'
        cases hr'
      · cases hsite.symm.trans hsite'
        exact hroom hroom'

theorem status_of_eq {c : Cmd} {st : Status} (heq : exec c s = (.ok st, t)) : status c s = st := by
  rw [status, heq]

/-- **What is put is got** exactly if the path leads to the file and no read but
the last is short; input that is too long is refused only if there is no file to
write to. -/
theorem put_get_iff (h : Whole s) (h0 : 0 ∉ path) (hchunks : ∀ c ∈ chunks, c ≠ [] ∧ c.length ≤ bufSize)
    (hblocks : (Cmd.put path (chunks.map some)).need s ≤ s.free)
    (hinode : s.resolve path = none → s.HasInode) : PutGet s path chunks ↔ PutOk s path chunks := by
  have hreads : none ∉ chunks.map some := by simp
  rw [PutGet, PutOk]
  split
  next hfits =>
    have hall : (putBytes (chunks.map some)).take maxFileSize = putBytes (chunks.map some) :=
      List.take_of_length_le (Nat.le_trans (length_putBytes hchunks) hfits)
    rw [← putBytes_eq_iff hchunks]
    constructor
    · rintro ⟨t, hput, hget⟩
      obtain ⟨hk, hfill⟩ := (doPut_safe h.tidy path _).done hput
      exact ((hall ▸ hfill rfl).get h hk h0).mp hget
    · rintro ⟨hreach, hbytes⟩
      obtain ⟨t, hput⟩ := doPut_succeeds h.tidy hreach.opens hreads hblocks hinode
      obtain ⟨hk, hfill⟩ := (doPut_safe h.tidy path _).done hput
      exact ⟨t, hput, ((hall ▸ hfill rfl).get h hk h0).mpr ⟨hreach, hbytes⟩⟩
  next =>
    constructor
    · intro hfail hopen
      obtain ⟨t, hput⟩ := doPut_succeeds h.tidy hopen hreads hblocks hinode
      rw [status_of_eq (c := .put path _) hput] at hfail
      cases hfail
    · intro hno
      exact status_of_eq (doPut_fails h.tidy hno)

/-- Two reads of a byte each, as from a pipe. -/
def twoReads : List (List UInt8) := [[120], [121]]

/-- One read on an image without files. -/
theorem put_get_iff_byte : PutGet (formatted (small 8)) [102] [[120]] := by
  have hsite : (formatted (small 8)).site root [102] = some (root, [102]) := by decide +kernel
  refine (put_get_iff whole_small (by decide) (by decide) (by decide +kernel)
    fun _ => ⟨2, by decide, by decide⟩).mpr ?_
  rw [PutOk, if_pos (by decide)]
  exact ⟨.inr ⟨root, [102], hsite, by decide +kernel⟩, by decide⟩

/-- Of two reads of one byte each, `put` keeps the first: the second byte is lost. -/
theorem second_read_lost : Whole (formatted (small 8)) ∧
    (Cmd.put [102] (twoReads.map some)).need (formatted (small 8)) ≤ (formatted (small 8)).free ∧
    (formatted (small 8)).HasInode ∧ ¬ PutGet (formatted (small 8)) [102] twoReads := by
  refine ⟨whole_small, by decide +kernel, ⟨2, by decide, by decide⟩, fun hput => ?_⟩
  rw [PutGet, if_pos (by decide)] at hput
  obtain ⟨t, hput, hget⟩ := hput
  have hout : (doGet [102] (doPut [102] (twoReads.map some) (formatted (small 8))).2).1 =
      .ok (.success, [120]) := by decide +kernel
  rw [hput, hget] at hout
  cases hout

/-! ## `cp` -/

theorem copySite_of_dir (hr : s.resolve dpath = some dip) :
    s.copySite spath dpath = some (dip, baseName spath) := by
  rw [Img.copySite, hr]

theorem copySite_plain (hsite : s.copySite spath dpath = some (d, name)) : Plain name := by
  rcases copySite_name hsite with rfl | rfl
  · exact baseName_plain spath
  · exact baseName_plain dpath

theorem copyDest_eq (h : Tidy s) (hsite : s.copySite spath dpath = some (d, name)) (hd : s.IsDir d)
    (hname : name ≠ []) : copyDest spath dpath s = creatAt d name .file s := by
  rw [copyDest, bind_of_eq (lookup_eq h dpath)]
  cases hr : s.resolve dpath with
  | none =>
    rw [Img.copySite, hr] at hsite
    obtain ⟨d', hd', heq⟩ := Option.map_eq_some_iff.mp hsite
    cases heq
    dsimp only
    rw [if_neg hname, bind_of_eq (lookup_eq h _), hd']
    dsimp only
    rw [gets_bind, if_neg (not_not.mpr hd.2)]
  | some dip =>
    cases (copySite_of_dir hr).symm.trans hsite
    dsimp only
    rw [gets_bind, hd.2]

/-- A place for the copy of `spath`. -/
structure CopySpot (s : Img) (spath dpath : Name) (d : Nat) (name : Name) : Prop where
  site : s.copySite spath dpath = some (d, name)
  dir : s.IsDir d
  nonempty : name ≠ []
  new : inodeOf (s.find d name) = none

theorem CopySpot.not_file (h : CopySpot s spath dpath d name) (hr : s.resolve dpath = some dip) :
    (s.inode dip).type ≠ .file := by
  cases (copySite_of_dir hr).symm.trans h.site
  rw [h.dir.2]
  decide

/-- With blocks and an inode for the copy `do_cp` succeeds. -/
theorem doCp_succeeds (h : Tidy s) (hres : s.resolve spath = some sip)
    (htype : (s.inode sip).type = .file)
    (hdest : (∃ dip, s.resolve dpath = some dip ∧ (s.inode dip).type = .file) ∨
      ∃ d name, CopySpot s spath dpath d name)
    (hblocks : (Cmd.cp spath dpath).need s ≤ s.free)
    (hinode : (∀ dip, s.resolve dpath = some dip → (s.inode dip).type ≠ .file) → s.HasInode) :
    ∃ t, exec (.cp spath dpath) s = (.ok .success, t) := by
  have hsip := resolve_inum h hres
  rw [Cmd.need, hres, Option.elim_some] at hblocks
  -- the destination is there, and the blocks for the copy
  obtain ⟨dip, t, hcopy, hkept, hfree, hdest⟩ : ∃ dip t, copyDest spath dpath s = (.ok (some dip), t) ∧
      Kept s t ∧ fileCost (s.inode sip).size ≤ t.free ∧ Dest s t sip dip := by
    rcases hdest with ⟨dip, hr, hdtype⟩ | ⟨d, name, hspot⟩
    · obtain ⟨t, heq, hedit, hfree, hdest⟩ := copyDest_onto h hsip htype spath hr hdtype
      rw [fileNeed_of_file hr hdtype] at hblocks
      exact ⟨dip, t, heq, hedit.toKept, by omega, hdest⟩
    · rw [fileNeed_of_new fun dip => hspot.not_file] at hblocks
      obtain ⟨ip, t, heq⟩ := creatAt_returns h hspot.dir (.inl rfl)
        (site_plain (copySite_plain hspot.site) hspot.nonempty hspot.new) (show 2 ≤ s.free by omega)
        (hinode fun dip => hspot.not_file)
      obtain ⟨hkept, hfree, hdest⟩ :=
        Ends.returned (creatAt_dest h hsip htype hspot.dir hspot.site) heq
      refine ⟨ip, t, ?_, hkept, by omega, (hdest ip rfl).1⟩
      rw [copyDest_eq h hspot.site hspot.dir hspot.nonempty, heq]
  obtain ⟨st, u, hloop, -, -, -, rfl⟩ :=
    (copyLoop_sure hkept.tidy (hkept.inum hsip) hdest).returns hfree
  refine ⟨u, ?_⟩
  rw [exec, doCp, bind_of_eq (lookup_eq h spath), hres]
  dsimp only
  rw [gets_bind, if_neg (not_not.mpr htype), bind_of_eq hcopy]
  dsimp only
  rw [gets_bind, hloop]

/-- The file that is the destination: the one at `dpath` or, if that is a
directory, the one in it that has the last name of `spath`. -/
def Img.target (s t : Img) (spath dpath : Name) : Option Nat :=
  match s.resolve dpath with
  | some dip =>
      if (s.inode dip).type = .dir then inodeOf (t.find dip (baseName spath)) else t.resolve dpath
  | none => t.resolve dpath

/-- A copy that is reported has the bytes of the source, and the source has them
still. -/
def CopiesRight (s : Img) (spath dpath : Name) : Prop :=
  ∀ t, exec (.cp spath dpath) s = (.ok .success, t) → ∃ sip dip, s.resolve spath = some sip ∧
    s.target t spath dpath = some dip ∧ t.bytes dip = s.bytes sip ∧
    t.resolve spath = some sip ∧ t.bytes sip = s.bytes sip

/-- What `do_cp` does not check. -/
structure CopyOk (s : Img) (spath dpath : Name) (sip : Nat) : Prop where
  /-- the file does not go to itself -/
  other : s.resolve dpath = some sip → (s.inode sip).type = .file → s.bytes sip = []
  /-- there is room for a new name -/
  room : ∀ d name, CopySpot s spath dpath d name → s.HasRoom d
  /-- the buffer for the directory part of `dpath` was long enough to find it -/
  dir : s.resolve dpath = none → ∀ d name, CopySpot s spath dpath d name →
    s.resolve (dirPart dpath) = some d

theorem Copied.spot (hcopied : Copied s u spath dpath ip) : ∃ d name, CopySpot s spath dpath d name ∧
    Kept s u ∧ Made s u .file d name ip ∧ s.site d name = some (d, name.take dirsiz) := by
  obtain ⟨d, name, hsite, hd, hk, hmade⟩ := hcopied
  have hplain := copySite_plain hsite
  obtain ⟨d', name', hsite', -⟩ := hmade.node
  obtain ⟨hwalk, hnew⟩ := Option.filter_eq_some_iff.mp hsite'
  obtain ⟨hname, hnone⟩ := of_decide_eq_true hnew
  rw [walk_plain hplain] at hwalk
  cases hwalk
  rw [find_take] at hnone
  have hne : name ≠ [] := by
    rintro rfl
    exact hname rfl
  exact ⟨d, name, ⟨hsite, hd, hne, hnone⟩, hk, hmade, site_plain hplain hne hnone⟩

theorem sameName_take_self : sameName name (name.take dirsiz) = true := by
  rw [sameName_comm, sameName_take]
  exact decide_eq_true rfl

theorem CopySpot.zero (hspot : CopySpot s spath dpath d name) (hs0 : 0 ∉ spath) (hd0 : 0 ∉ dpath) :
    0 ∉ name := by
  rcases copySite_name hspot.site with rfl | rfl
  · exact fun hmem => hs0 (mem_of_mem_baseName hmem)
  · exact fun hmem => hd0 (mem_of_mem_baseName hmem)

/-- Where the new file can be found, if there was room for its name. -/
theorem CopySpot.target (hspot : CopySpot s spath dpath d name) (h : Whole s) (h0 : 0 ∉ name)
    (hk : Kept s u) (hmade : Made s u .file d name ip)
    (hsite : s.site d name = some (d, name.take dirsiz)) (hroom : s.HasRoom d) :
    s.target u spath dpath = some x ↔
      x = ip ∧ (s.resolve dpath = none → s.resolve (dirPart dpath) = some d) := by
  rw [Img.target]
  cases hr : s.resolve dpath with
  | some dip =>
    cases (copySite_of_dir hr).symm.trans hspot.site
    dsimp only
    rw [if_pos hspot.dir.2, Made.find h hk hspot.dir hmade h0 hsite hroom hspot.dir hspot.nonempty,
      hspot.new]
    simp [sameName_take_self]
  | none =>
    have hsite' := hspot.site
    rw [Img.copySite, hr] at hsite'
    obtain ⟨d', -, heq⟩ := Option.map_eq_some_iff.mp hsite'
    cases heq
    dsimp only
    rw [Made.resolve h hk hspot.dir hmade h0 hsite hroom, hr, resolve_dirPart]
    constructor
    · rintro (hbad | ⟨nm, hwalk, -, -, rfl⟩)
      · cases hbad
      · cases walk_baseName hwalk
        exact ⟨rfl, fun _ => hwalk⟩
    · rintro ⟨rfl, hwalk⟩
      refine .inr ⟨_, hwalk rfl, take_ne_nil hspot.nonempty, ?_, rfl⟩
      rw [sameName_take]
      exact sameName_take_self

theorem CopySpot.lost (hspot : CopySpot s spath dpath d name) (h : Tidy s) (halike : Alike s t) :
    s.target t spath dpath = none := by
  rw [Img.target]
  cases hr : s.resolve dpath with
  | some dip =>
    cases (copySite_of_dir hr).symm.trans hspot.site
    dsimp only
    rw [if_pos hspot.dir.2, halike.find hspot.dir, hspot.new]
  | none =>
    dsimp only
    rw [halike.resolve h, hr]

/-- The destination after `do_cp`, seen in the image where the file was made. -/
theorem target_alike (h : Alike t u) (ht : Tidy t)
    (hdir : ∀ dip, s.resolve dpath = some dip → s.IsDir dip → t.IsDir dip) (hs : Tidy s) :
    s.target u spath dpath = s.target t spath dpath := by
  rw [Img.target, Img.target]
  cases hr : s.resolve dpath with
  | none => exact h.resolve ht _
  | some dip =>
    dsimp only
    split
    next htype => rw [h.find (hdir dip hr ⟨resolve_inum hs hr, htype⟩)]
    next => exact h.resolve ht _

/-- What a successful copy has done, if `do_cp` has not missed anything. -/
theorem Duplicated.right (hdup : Duplicated s t spath dpath sip) (h : Whole s) (hk : Kept s t)
    (hs0 : 0 ∉ spath) (hd0 : 0 ∉ dpath) (hres : s.resolve spath = some sip)
    (htype : (s.inode sip).type = .file) (hok : CopyOk s spath dpath sip) :
    ∃ dip, s.target t spath dpath = some dip ∧ t.bytes dip = s.bytes sip ∧
      t.resolve spath = some sip ∧ t.bytes sip = s.bytes sip := by
  cases hdup with
  | onto dip hr hdtype hnode hbytes hsource =>
    have halike : Alike s t := .of_node hk.sb hnode
    have htarget : s.target t spath dpath = some dip := by
      rw [Img.target, hr]
      dsimp only
      rw [if_neg (by rw [hdtype]; decide), halike.resolve h.tidy, hr]
    refine ⟨dip, htarget, ?_, by rw [halike.resolve h.tidy, hres], ?_⟩
    · rw [hbytes]
      split
      next heq => rw [hok.other (heq ▸ hr) htype]
      next => rfl
    · by_cases heq : dip = sip
      · rw [if_pos heq, heq] at hbytes
        rw [hbytes, hok.other (heq ▸ hr) htype]
      · exact hsource heq
  | new u ip _ hcopied hnode hbytes hsource =>
    obtain ⟨d, name, hspot, hu, hmade, hsite⟩ := hcopied.spot
    have h0 := hspot.zero hs0 hd0
    have hroom := hok.room d name hspot
    have halike : Alike u t := .of_node (hk.sb.trans hu.sb.symm) hnode
    refine ⟨ip, ?_, hbytes, ?_, hsource⟩
    · rw [target_alike halike hu.tidy (fun dip _ => (hmade.isDir dip).mpr) h.tidy,
        hspot.target h h0 hu hmade hsite hroom]
      exact ⟨rfl, fun hr => hok.dir hr d name hspot⟩
    · rw [halike.resolve hu.tidy, Made.resolve h hu hspot.dir hmade h0 hsite hroom]
      exact .inl hres

theorem Duplicated.ok (hdup : Duplicated s t spath dpath sip) (h : Whole s) (hk : Kept s t)
    (hs0 : 0 ∉ spath) (hd0 : 0 ∉ dpath) (htarget : s.target t spath dpath = some x)
    (hsame : t.bytes sip = s.bytes sip) : CopyOk s spath dpath sip := by
  cases hdup with
  | onto dip hr hdtype hnode hbytes hsource =>
    refine ⟨fun hself _ => ?_, fun d name hspot => absurd hdtype (hspot.not_file hr), fun hnone => ?_⟩
    · cases hr.symm.trans hself
      rw [if_pos rfl] at hbytes
      rw [← hsame, hbytes]
    · rw [hr] at hnone
      cases hnone
  | new u ip hfile hcopied hnode hbytes hsource =>
    obtain ⟨d, name, hspot, hu, hmade, hsite⟩ := hcopied.spot
    have halike : Alike u t := .of_node (hk.sb.trans hu.sb.symm) hnode
    rw [target_alike halike hu.tidy (fun dip _ => (hmade.isDir dip).mpr) h.tidy] at htarget
    have hroom : s.HasRoom d := by
      by_contra hroom
      rw [hspot.lost h.tidy (hmade.alike hu hsite hroom)] at htarget
      cases htarget
    rw [hspot.target h (hspot.zero hs0 hd0) hu hmade hsite hroom] at htarget
    refine ⟨fun hself hfile' => absurd hfile' (hfile sip hself), fun d' name' hspot' => ?_,
      fun hnone d' name' hspot' => ?_⟩
    · cases hspot.site.symm.trans hspot'.site
      exact hroom
    · cases hspot.site.symm.trans hspot'.site
      exact htarget.2 hnone

/-- **A copy that is reported is one** exactly if the source does not go to
itself, unless it is empty, and the new file can be found. -/
theorem copies_right_iff (h : Whole s) (hs0 : 0 ∉ spath) (hd0 : 0 ∉ dpath)
    (hblocks : (Cmd.cp spath dpath).need s ≤ s.free)
    (hinode : (∀ dip, s.resolve dpath = some dip → (s.inode dip).type ≠ .file) → s.HasInode) :
    CopiesRight s spath dpath ↔ ∀ sip, s.resolve spath = some sip → (s.inode sip).type = .file →
      CopyOk s spath dpath sip := by
  constructor
  · intro hright sip hres htype
    by_cases hdest : (∃ dip, s.resolve dpath = some dip ∧ (s.inode dip).type = .file) ∨
        ∃ d name, CopySpot s spath dpath d name
    · obtain ⟨t, heq⟩ := doCp_succeeds h.tidy hres htype hdest hblocks hinode
      obtain ⟨sip', dip, hres', htarget, -, -, hsame⟩ := hright t heq
      cases hres.symm.trans hres'
      obtain ⟨hk, hq⟩ := (doCp_safe h.tidy spath (h.not_dangling dpath)).done heq
      obtain ⟨sip', hres', -, hdup⟩ := hq rfl
      cases hres.symm.trans hres'
      exact hdup.ok h hk hs0 hd0 htarget hsame
    · -- nothing is copied
      rw [not_or] at hdest
      exact ⟨fun hself hfile => absurd ⟨sip, hself, hfile⟩ hdest.1,
        fun d name hspot => absurd ⟨d, name, hspot⟩ hdest.2,
        fun _ d name hspot => absurd ⟨d, name, hspot⟩ hdest.2⟩
  · intro hok t heq
    obtain ⟨hk, hq⟩ := (doCp_safe h.tidy spath (h.not_dangling dpath)).done heq
    obtain ⟨sip, hres, htype, hdup⟩ := hq rfl
    obtain ⟨dip, hcopy⟩ := hdup.right h hk hs0 hd0 hres htype (hok sip hres htype)
    exact ⟨sip, dip, hres, hcopy⟩

/-- An image with the file `f`, of one byte. -/
def oneFile : Img := (exec putOne (formatted (small 8))).2

theorem succeeds_putOne : Succeeds (formatted (small 8)) putOne oneFile := ⟨by decide +kernel, rfl⟩

theorem whole_oneFile : Whole oneFile := by
  refine whole_small.exec succeeds_putOne.exec ⟨by decide, fun d name hd => ?_⟩
  have hsite : (formatted (small 8)).site root [102] = some (root, [102]) := by decide +kernel
  cases hsite.symm.trans hd
  decide +kernel

/-- `cp f g`. -/
theorem copies_right_new :
    Succeeds oneFile (.cp [102] [103]) (exec (.cp [102] [103]) oneFile).2 ∧
      CopiesRight oneFile [102] [103] := by
  refine ⟨⟨by decide +kernel, rfl⟩, ?_⟩
  have hnone : oneFile.resolve [103] = none := by decide +kernel
  have hsite : oneFile.copySite [102] [103] = some (root, [103]) := by decide +kernel
  apply (copies_right_iff whole_oneFile (by decide) (by decide) (by decide +kernel)
    fun _ => ⟨3, by decide +kernel, by decide +kernel⟩).mpr
  intro sip hsip _
  refine ⟨fun hself => ?_, fun d name hspot => ?_, fun _ d name hspot => ?_⟩
  · rw [hnone] at hself
    cases hself
  · cases hsite.symm.trans hspot.site
    decide +kernel
  · cases hsite.symm.trans hspot.site
    decide +kernel

/-- `cp f f` is reported as a success, and `f` has lost its byte. -/
theorem copy_to_itself_lost : Whole oneFile ∧
    (Cmd.cp [102] [102]).need oneFile ≤ oneFile.free ∧ oneFile.HasInode ∧
    Succeeds oneFile (.cp [102] [102]) (exec (.cp [102] [102]) oneFile).2 ∧
    ¬ CopiesRight oneFile [102] [102] := by
  have hcp : Succeeds oneFile (.cp [102] [102]) (exec (.cp [102] [102]) oneFile).2 :=
    ⟨by decide +kernel, rfl⟩
  refine ⟨whole_oneFile, by decide +kernel, ⟨3, by decide +kernel, by decide +kernel⟩, hcp,
    fun hright => ?_⟩
  obtain ⟨sip, dip, hsip, -, -, -, hbytes⟩ := hright _ hcp.exec
  have hres : oneFile.resolve [102] = some 2 := by decide +kernel
  cases hres.symm.trans hsip
  revert hbytes
  decide +kernel

end Yaos.Fs
