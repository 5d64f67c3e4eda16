import Mathlib.Algebra.GroupWithZero.Nat
import Yaos.Fs.Create
import Yaos.Fs.Paths
import Yaos.Lib.Run

/-!
# What the commands do

Every command keeps the blocks accounted for if there are enough free ones
when it begins (`need`). Without, `fatal` leaves from the middle of a write: the
blocks taken so far are referred to but not counted by the size, and the bit
that `balloc` looked at last, behind the data blocks, is set. For a command that
succeeds the theorem about it also says what it has done to the table of nodes.
-/

namespace Yaos.Fs

open Yaos.Lib Prog

/-- The bytes that `put` may read. -/
def inputSize (reads : List (Option (List UInt8))) : Nat :=
  (reads.map fun r => min (r.getD []).length bufSize).sum

/-- The bytes that `put` reads: it takes a short read for the end of the input. -/
def putBytes : List (Option (List UInt8)) → List UInt8
  | [] => []
  | none :: _ => []
  | some bytes :: reads =>
      let buf := bytes.take bufSize
      if buf.length < bufSize then buf else buf ++ putBytes reads

/-- The blocks that a file of `n` bytes needs. -/
def fileCost (n : Nat) : Nat := slots (divceil n bsize)

/-- The blocks for `size` bytes in the file at `path`: it loses its old ones
first. A new file may need two more, for its entry. -/
def Img.fileNeed (s : Img) (path : Name) (size : Nat) : Nat :=
  match s.resolve path with
  | none => 2 + fileCost size
  | some ip =>
      if (s.inode ip).type = .file then fileCost size - fileCost (s.inode ip).size
      else 2 + fileCost size

def Cmd.need (s : Img) : Cmd → Nat
  | .put path reads => s.fileNeed path (min (inputSize reads) maxFileSize)
  | .cp spath dpath => (s.resolve spath).elim 0 fun sip => s.fileNeed dpath (s.inode sip).size
  | .mv _ _ => 2
  | .ln _ _ => 2
  | .mkdir _ => 3
  | _ => 0

variable {s t u w : Img} {i d ip sip dip j n off : Nat} {name path spath dpath : Name} {f : File}
  {buf : List UInt8}

/-! ## Reading -/

theorem getLoop_eq (h : Tidy s) (hi : s.sb.Inum i) : ∀ (n off : Nat) (out : List UInt8),
    (s.inode i).size < off + bufSize * n →
    getLoop i (n + 1) off out s = (.ok (.success, out ++ (s.bytes i).drop off), s) := by
  intro n
  induction n with
  | zero =>
    intro off out hsize
    rw [getLoop, gets_bind, if_neg (by omega), List.drop_of_length_le (by simp; omega), List.append_nil]
    rfl
  | succ n ih =>
    intro off out hsize
    rw [getLoop, gets_bind]
    by_cases hlt : off < (s.inode i).size
    · have hle := h.sound.blocks.size_le hi
      have hmax : maxFileSize + bufSize < 2 ^ 32 := by decide
      have hdev : (s.inode i).type ≠ .dev := by
        intro hdev
        have := h.sound.blocks.empty i hi (.inr hdev)
        omega
      have hsplit := List.take_append_drop bufSize ((s.bytes i).drop off)
      rw [List.drop_drop] at hsplit
      rw [if_pos hlt, bind_of_eq (iread_eq h.sound.blocks hi hdev (Nat.le_of_lt hlt) (by omega))]
      dsimp only
      rw [ih (off + bufSize) _ (by rw [Nat.mul_succ] at hsize; omega), List.append_assoc, hsplit]
    · rw [if_neg hlt, List.drop_of_length_le (by simp; omega), List.append_nil]
      rfl

theorem lsLoop_eq (h : Tidy s) (hd : s.IsDir d) : ∀ fuel j : Nat,
    (s.node d).ents.length < fuel + j → j ≤ (s.node d).ents.length →
    lsLoop d fuel (direntSize * j) s = (.ok .success, s) := by
  intro fuel
  induction fuel with
  | zero =>
    intro j hfuel hj
    omega
  | succ fuel ih =>
    intro j hfuel hj
    rw [lsLoop, gets_bind, id]
    by_cases hlt : j < (s.node d).ents.length
    · have he := List.getElem?_eq_getElem hlt
      rw [if_pos ((h.sound.lt_size_iff hd).mpr hlt), bind_of_eq (readEntry_eq h.sound hd he)]
      dsimp only
      split
      · exact ih (j + 1) (by omega) hlt
      next hlive =>
        rw [iget_of_inum ((h.dirOk hd).inum_of_live he hlive)]
        exact ih (j + 1) (by omega) hlt
    · rw [if_neg (by rw [h.sound.lt_size_iff hd]; exact hlt)]
      rfl

/-! ## Writing -/

structure Edited (s t : Img) : Prop extends Kept s t where
  node : t.node = s.node

theorem Tidy.edited (h : Tidy s) : Edited s s := ⟨h.kept, rfl⟩

theorem Edited.trans (h : Edited s t) (h' : Edited t u) : Edited s u :=
  ⟨h.toKept.trans h'.toKept, h'.node.trans h.node⟩

theorem Becomes.edited (hb : Becomes s t i f) (h : Tidy s) (hi : s.sb.Inum i)
    (htype : (s.inode i).type = .file) (hf : f.type = .file ∧ f.nlink = (s.inode i).nlink) :
    Edited s t := by
  have hnode : f.node = s.node i := by
    rw [node_of_inum hi, File.node, File.node, hf.1, hf.2]
    simp [Img.file, htype]
  have hacts := hb.acts h.sound hi fun hd => by
    rw [hf.1] at hd
    cases hd
  rw [hnode, Function.update_eq_self] at hacts
  exact ⟨hacts.kept h.dirs, hacts.node⟩

theorem fileCost_mono {m : Nat} (h : n ≤ m) : fileCost n ≤ fileCost m := slots_mono (divceil_mono h)

theorem append_spec (h : Tidy s) (hi : s.sb.Inum i) (htype : (s.inode i).type = .file)
    (hsize : (s.inode i).size = off) (hle : off + buf.length ≤ maxFileSize) :
    Ends (iwrite i buf off) s
      (fun r t => r = some buf.length ∧ Edited s t ∧ (t.inode i).type = .file ∧
        (t.inode i).size = off + buf.length ∧ t.bytes i = s.bytes i ++ buf ∧
        t.free + fileCost (off + buf.length) = s.free + fileCost off ∧
        ∀ i', i' ≠ i → s.sb.Inum i' → t.file i' = s.file i')
      (fun _ _ => s.free + fileCost off < fileCost (off + buf.length)) := by
  have hcost : (s.file i).cost = fileCost off := by
    rw [File.cost, fileCost, ← hsize, ← length_bytes]
    rfl
  have htypes : (s.inode i).type ≠ .dev ∧ (s.inode i).type ≠ .free := by
    rw [htype]
    decide
  refine (iwrite_spec h.sound.blocks hi htypes (Nat.le_of_eq hsize.symm) hle).mono ?_ ?_
  · rintro r t ⟨rfl, hb⟩
    have hself := hb.self
    have hlen : (overwrite (s.bytes i) off buf).length = off + buf.length := by
      rw [length_overwrite (by rw [length_bytes, hsize]), length_bytes, hsize]
      omega
    refine ⟨rfl, hb.edited h hi htype ⟨htype, rfl⟩, ?_, ?_, ?_, ?_, hb.other⟩
    · exact (congrArg File.type hself).trans htype
    · rw [← length_bytes, ← hlen]
      exact congrArg (fun f => f.data.length) hself
    · rw [← overwrite_end (length_bytes.trans hsize)]
      exact congrArg File.data hself
    · have hfree := hb.free
      rw [hcost, File.cost] at hfree
      dsimp only at hfree
      rwa [hlen] at hfree
  · intro e t hlt
    rw [hcost, hsize, Nat.max_eq_right (Nat.le_add_right _ _)] at hlt
    exact hlt

theorem inputSize_cons {r : Option (List UInt8)} {reads : List (Option (List UInt8))} :
    inputSize (r :: reads) = min (r.getD []).length bufSize + inputSize reads := by
  simp [inputSize]

/-- What is left of a budget after a loop that writes a file. -/
def Within (s : Img) (off total : Nat) (t : Img) : Prop :=
  Edited s t ∧ s.free + fileCost off ≤ t.free + fileCost total

/-- A loop has added to the bytes of the file `i`, and to no other file. -/
structure Extended (s t : Img) (i : Nat) (buf : List UInt8) : Prop where
  bytes : t.bytes i = s.bytes i ++ buf
  other : ∀ j, j ≠ i → s.sb.Inum j → t.file j = s.file j

theorem Extended.refl : Extended s s i [] := ⟨(List.append_nil _).symm, fun _ _ _ => rfl⟩

theorem Extended.trans {buf' : List UInt8} (h : Extended s t i buf) (hsb : t.sb = s.sb)
    (h' : Extended t u i buf') : Extended s u i (buf ++ buf') where
  bytes := by rw [h'.bytes, h.bytes, List.append_assoc]
  other j hne hj := (h'.other j hne (hsb ▸ hj)).trans (h.other j hne hj)

/-- A file that `do_put` goes on to write at `off`: it ends there, after whole buffers. -/
structure PutReady (s : Img) (i off : Nat) : Prop where
  tidy : Tidy s
  inum : s.sb.Inum i
  type : (s.inode i).type = .file
  size : (s.inode i).size = off
  whole : bufSize ∣ off

/-- What the loop of `do_put` does from there: it adds the bytes that it reads, as far
as the file can grow, and stops only for want of blocks. -/
def PutsOn (i : Nat) (reads : List (Option (List UInt8))) (off : Nat) (s : Img) : Prop :=
  Ends (putLoop i reads off) s
    (fun st t => Within s off (min (off + inputSize reads) maxFileSize) t ∧
      Extended s t i ((putBytes reads).take (maxFileSize - off)) ∧ (none ∉ reads → st = .success))
    (fun _ _ => s.free + fileCost off < fileCost (min (off + inputSize reads) maxFileSize))

section PutLoop

variable {reads : List (Option (List UInt8))} {bytes : List UInt8}

theorem PutReady.le (h : PutReady s i off) : off ≤ maxFileSize :=
  h.size ▸ h.tidy.sound.blocks.size_le h.inum

theorem PutReady.within (h : PutReady s i off) :
    Within s off (min (off + n) maxFileSize) s := by
  have hle := h.le
  have hcost : fileCost off ≤ fileCost (min (off + n) maxFileSize) := fileCost_mono (by omega)
  exact ⟨h.tidy.edited, by omega⟩

theorem PutReady.full (h : PutReady s i off) (hend : ¬ off < maxFileSize) : PutsOn i reads off s := by
  have hzero : maxFileSize - off = 0 := by omega
  rw [PutsOn, putLoop.eq_def]
  dsimp only
  rw [if_neg hend, hzero, List.take_zero]
  exact ⟨h.within, .refl, fun _ => rfl⟩

/-- A read of at most a buffer is written at the end of the file. -/
theorem PutReady.write (h : PutReady s i off) (hlt : off < maxFileSize) (hbuf : buf.length ≤ bufSize)
    (rest : Nat) : Ends (iwrite i buf off) s
      (fun r t => r = some buf.length ∧ Within s off (off + buf.length) t ∧ Extended s t i buf ∧
        (buf.length = bufSize → PutReady t i (off + buf.length)) ∧ off + buf.length ≤ maxFileSize)
      (fun _ _ => s.free + fileCost off < fileCost (min (off + (buf.length + rest)) maxFileSize)) := by
  -- the limit is a multiple of the size of the buffer
  have hfits : off + buf.length ≤ maxFileSize := by
    obtain ⟨q, rfl⟩ := h.whole
    unfold maxFileSize bsize ndirect nindirect bufSize at *
    omega
  have hgrow : fileCost (off + buf.length) ≤ fileCost (min (off + (buf.length + rest)) maxFileSize) :=
    fileCost_mono (by omega)
  refine (append_spec h.tidy h.inum h.type h.size hfits).mono ?_ fun _ _ hlt => by omega
  rintro r t ⟨rfl, hedit, htype, hsize, hbytes, hfree, hother⟩
  exact ⟨rfl, ⟨hedit, Nat.le_of_eq hfree.symm⟩, ⟨hbytes, hother⟩, fun hfull =>
    ⟨hedit.tidy, hedit.inum h.inum, htype, hsize, Nat.dvd_add h.whole (hfull ▸ Nat.dvd_refl _)⟩, hfits⟩

theorem PutReady.nil (h : PutReady s i off) : PutsOn i [] off s := by
  by_cases hlt : off < maxFileSize
  · rw [PutsOn, putLoop, putBytes, List.take_nil, if_pos hlt]
    refine Ends.bind (h.write hlt (show ([] : List UInt8).length ≤ bufSize from Nat.zero_le _) 0) ?_
    rintro r t ⟨rfl, ⟨hedit, hfree⟩, hext, -, hle⟩
    have hmin : min (off + inputSize []) maxFileSize = off + ([] : List UInt8).length :=
      Nat.min_eq_left hle
    rw [hmin]
    exact ⟨⟨hedit, hfree⟩, hext, fun _ => rfl⟩
  · exact h.full hlt

theorem PutReady.cons (h : PutReady s i off)
    (ih : ∀ (off : Nat) (s : Img), PutReady s i off → PutsOn i reads off s) :
    PutsOn i (some bytes :: reads) off s := by
  by_cases hlt : off < maxFileSize
  swap
  · exact h.full hlt
  have hlen : (bytes.take bufSize).length ≤ bufSize := List.length_take_le _ _
  have htotal : inputSize (some bytes :: reads) = (bytes.take bufSize).length + inputSize reads := by
    rw [inputSize_cons, List.length_take, Nat.min_comm]
    rfl
  rw [PutsOn, putLoop, if_pos hlt, htotal, putBytes]
  generalize bytes.take bufSize = buf at hlen htotal ⊢
  refine Ends.bind (h.write hlt hlen (inputSize reads)) ?_
  rintro r t ⟨rfl, ⟨hedit, hfree⟩, hext, hready, hfits⟩
  have hgrow : fileCost (off + buf.length) ≤
      fileCost (min (off + (buf.length + inputSize reads)) maxFileSize) := fileCost_mono (by omega)
  rw [if_neg (by simp)]
  split
  next => exact ⟨⟨hedit, by omega⟩, by rwa [List.take_of_length_le (by omega)], fun _ => rfl⟩
  next hfull =>
    have hfull : buf.length = bufSize := by omega
    have hrest := ih _ t (hready hfull)
    rw [PutsOn, Nat.add_assoc] at hrest
    rw [← hfull]
    refine hrest.mono ?_ fun _ _ hlt => by omega
    rintro st u ⟨⟨hedit', hfree'⟩, hext', hst⟩
    refine ⟨⟨hedit.trans hedit', by omega⟩, ?_, fun hno => hst fun hmem => hno (by simp [hmem])⟩
    rw [List.take_append, List.take_of_length_le (by omega), Nat.sub_sub]
    exact hext.trans hedit.sb hext'

/-- **The loop of `do_put`.** -/
theorem putLoop_spec (reads : List (Option (List UInt8))) (off : Nat) (s : Img)
    (h : PutReady s i off) : PutsOn i reads off s := by
  induction reads generalizing off s with
  | nil => exact h.nil
  | cons r reads ih =>
    cases r with
    | none =>
      rw [PutsOn, putLoop, putBytes, List.take_nil]
      split <;> exact ⟨h.within, .refl, fun hno => by simp at hno⟩
    | some bytes => exact h.cons ih

end PutLoop

theorem copyLoop_spec (hne : sip ≠ dip) : ∀ (n off : Nat) (s : Img),
    Tidy s → s.sb.Inum sip → (s.inode sip).type = .file → s.sb.Inum dip →
    (s.inode dip).type = .file → (s.inode dip).size = min off (s.inode sip).size →
    (s.inode sip).size < off + bufSize * n →
    Ends (copyLoop sip dip (n + 1) off) s
      (fun st t => Within s (s.inode dip).size (s.inode sip).size t ∧
        Extended s t dip ((s.bytes sip).drop off) ∧ st = .success)
      (fun _ _ => s.free + fileCost (s.inode dip).size < fileCost (s.inode sip).size) := by
  intro n
  induction n with
  | zero =>
    intro off s h _ _ _ _ hsize hfuel
    have hcost : fileCost (s.inode dip).size ≤ fileCost (s.inode sip).size :=
      fileCost_mono (by omega)
    rw [copyLoop, ends_gets_bind, if_neg (by omega), List.drop_of_length_le (by simp; omega)]
    exact ⟨⟨h.edited, by omega⟩, .refl, rfl⟩
  | succ n ih =>
    intro off s h hsip hstype hdip hdtype hsize hfuel
    have hcost : fileCost (s.inode dip).size ≤ fileCost (s.inode sip).size :=
      fileCost_mono (by omega)
    rw [copyLoop, ends_gets_bind]
    by_cases hlt : off < (s.inode sip).size
    · have hmax : maxFileSize + bufSize < 2 ^ 32 := by decide
      have hle := h.sound.blocks.size_le hsip
      have hread := iread_eq (n := bufSize) h.sound.blocks hsip (by rw [hstype]; decide)
        (Nat.le_of_lt hlt) (by omega)
      rw [Nat.min_eq_left (Nat.le_of_lt hlt)] at hsize
      rw [if_pos hlt, hsize]
      refine Ends.bind_eq hread ?_
      have hlen : (((s.bytes sip).drop off).take bufSize).length =
          min bufSize ((s.inode sip).size - off) := by simp
      have hsplit := List.take_append_drop bufSize ((s.bytes sip).drop off)
      rw [List.drop_drop] at hsplit
      generalize ((s.bytes sip).drop off).take bufSize = buf at hlen hsplit
      have hgrow : fileCost (off + buf.length) ≤ fileCost (s.inode sip).size :=
        fileCost_mono (by omega)
      refine Ends.bind ((append_spec h hdip hdtype hsize (by omega)).mono (fun _ _ hq => hq)
        fun _ _ hlt => by omega) ?_
      rintro r t ⟨rfl, hkept, hdtype', hdsize, hbytes, hfree, hother⟩
      rw [if_neg (by simp)]
      -- the source has not changed
      have hfile := hother sip hne hsip
      have hsbytes : t.bytes sip = s.bytes sip := congrArg File.data hfile
      have hssize : (t.inode sip).size = (s.inode sip).size := by
        rw [← length_bytes, hsbytes, length_bytes]
      have hstype' : (t.inode sip).type = .file := (congrArg File.type hfile).trans hstype
      have hrest := ih (off + bufSize) t hkept.tidy (hkept.inum hsip) hstype' (hkept.inum hdip)
        hdtype' (by omega) (by rw [Nat.mul_succ] at hfuel; omega)
      rw [hssize, hdsize, hsbytes] at hrest
      refine hrest.mono ?_ ?_
      · rintro st u ⟨⟨hkept', hfree'⟩, hext, rfl⟩
        refine ⟨⟨hkept.trans hkept', by omega⟩, ?_, rfl⟩
        rw [← hsplit]
        exact Extended.trans ⟨hbytes, hother⟩ hkept.sb hext
      · intro e u hlt
        omega
    · rw [if_neg hlt, List.drop_of_length_le (by simp; omega)]
      exact ⟨⟨h.edited, by omega⟩, .refl, rfl⟩

/-! ## The commands -/

theorem doInfo_safe (h : Tidy s) (path : Name) : Safe 0 (doInfo path) s fun _ t => t = s := by
  refine Safe.read (lookup_eq h path) ?_
  cases hr : s.resolve path with
  | none => exact Safe.pure h rfl
  | some ip =>
    have hip := resolve_inum h hr
    refine Safe.gets ?_
    split
    next hind =>
      have hslot : s.slot ip ndirect = (s.inode ip).addrs ndirect := slot_of_le (Nat.le_refl _)
      have hvalid := h.sound.blocks.owned.valid ip ndirect (isSlot_ndirect hip) (hslot ▸ hind.2)
      exact Safe.read (deref_of_valid (hslot ▸ hvalid)) (Safe.pure h rfl)
    next => exact Safe.pure h rfl

theorem doLs_safe (h : Tidy s) (path : Name) : Safe 0 (doLs path) s fun _ t => t = s := by
  refine Safe.read (lookup_eq h path) ?_
  cases hr : s.resolve path with
  | none => exact Safe.pure h rfl
  | some ip =>
    refine Safe.gets ?_
    split
    next hdir =>
      have hd : s.IsDir ip := ⟨resolve_inum h hr, hdir⟩
      have hrounds : (s.node ip).ents.length < s.rounds ip + 0 := by
        rw [Img.rounds, length_ents hd]
        omega
      exact Ends.of_eq (lsLoop_eq h hd (s.rounds ip) 0 hrounds (Nat.zero_le _))
        ⟨h.kept, Nat.le_refl _, rfl⟩
    next => exact Safe.pure h rfl

theorem doGet_safe (h : Tidy s) (path : Name) : Safe 0 (doGet path) s fun _ t => t = s := by
  refine Safe.read (lookup_eq h path) ?_
  cases hr : s.resolve path with
  | none => exact Safe.pure h rfl
  | some ip =>
    refine Safe.gets ?_
    have hfuel : (s.inode ip).size < 0 + bufSize * ((s.inode ip).size / bufSize + 1) := by
      unfold bufSize
      omega
    exact Ends.of_eq (getLoop_eq h (resolve_inum h hr) _ 0 [] hfuel) ⟨h.kept, Nat.le_refl _, rfl⟩

theorem fileNeed_of_file (hr : s.resolve path = some ip) (htype : (s.inode ip).type = .file) :
    s.fileNeed path n = fileCost n - fileCost (s.inode ip).size := by
  rw [Img.fileNeed, hr]
  exact if_pos htype

theorem fileNeed_of_new (hnew : ∀ ip, s.resolve path = some ip → (s.inode ip).type ≠ .file) :
    s.fileNeed path n = 2 + fileCost n := by
  rw [Img.fileNeed]
  cases hr : s.resolve path with
  | none => rfl
  | some ip => exact if_neg (hnew ip hr)

theorem fileCost_zero : fileCost 0 = 0 := rfl

theorem bytes_of_size (h : (s.inode i).size = 0) : s.bytes i = [] :=
  List.length_eq_zero_iff.mp (length_bytes.trans h)

theorem putLoop_sure (h : Tidy s) (hi : s.sb.Inum i) (htype : (s.inode i).type = .file)
    (hsize : (s.inode i).size = 0) (reads : List (Option (List UInt8))) :
    Sure (fileCost (min (inputSize reads) maxFileSize)) (putLoop i reads 0) s
      fun st t => t.node = s.node ∧ t.bytes i = (putBytes reads).take maxFileSize ∧
        (none ∉ reads → st = .success) := by
  have hspec := putLoop_spec reads 0 s ⟨h, hi, htype, hsize, Nat.dvd_zero _⟩
  rw [PutsOn, fileCost_zero, Nat.zero_add] at hspec
  refine hspec.mono ?_ fun _ _ hlt => hlt
  rintro st t ⟨⟨hedit, hfree⟩, hext, hst⟩
  refine ⟨hedit.toKept, by rwa [fileCost_zero] at hfree, hedit.node, ?_, hst⟩
  rw [hext.bytes, bytes_of_size hsize]
  rfl

theorem itruncate_edits (h : Tidy s) (hi : s.sb.Inum i) (htype : (s.inode i).type = .file) :
    ∃ t, itruncate i 0 s = (.ok (), t) ∧ Edited s t ∧ s.free + fileCost (s.inode i).size ≤ t.free ∧
      (t.inode i).type = .file ∧ (t.inode i).size = 0 ∧
      ∀ i', i' ≠ i → s.sb.Inum i' → t.file i' = s.file i' := by
  obtain ⟨t, heq, hb⟩ := itruncate_spec h.sound.blocks hi (by rw [htype]; decide)
  have hself := hb.self
  have hfree := hb.free
  have hnone : File.cost { s.file i with data := [] } = 0 := rfl
  have hcost : (s.file i).cost = fileCost (s.inode i).size :=
    congrArg fileCost (length_bytes (s := s) (i := i))
  refine ⟨t, heq, hb.edited h hi htype ⟨htype, rfl⟩, by omega, ?_, ?_, hb.other⟩
  · exact (congrArg File.type hself).trans htype
  · rw [← length_bytes]
    exact congrArg (fun f => f.data.length) hself

theorem size_of_bytes (h : s.bytes i = []) : (s.inode i).size = 0 := by
  rw [← length_bytes, h]
  rfl

theorem Safe.failed {P : Img → Prop} {k : Nat} (h : Tidy s) :
    Safe k (Pure.pure Status.failure) s fun st t => st = Status.success → P t :=
  Safe.pure h fun hst => by cases hst

/-- What `do_put` does: the bytes go to a file that is there, or to a new one. -/
inductive Filled (s t : Img) (path : Name) (bytes : List UInt8) : Prop where
  | old (ip : Nat) : s.resolve path = some ip → (s.inode ip).type = .file → t.node = s.node →
      t.bytes ip = bytes → Filled s t path bytes
  | new (u : Img) (ip : Nat) : s.resolve path = none → Kept s u → Made s u .file root path ip →
      t.node = u.node → t.bytes ip = bytes → Filled s t path bytes

theorem doPut_safe (h : Tidy s) (path : Name) (reads : List (Option (List UInt8))) :
    Safe (s.fileNeed path (min (inputSize reads) maxFileSize)) (doPut path reads) s
      fun st t => st = .success → Filled s t path ((putBytes reads).take maxFileSize) := by
  refine Safe.read (lookup_eq h path) ?_
  cases hr : s.resolve path with
  | none =>
    rw [fileNeed_of_new (by simp [hr])]
    refine Safe.bind (creatAt_safe h h.isDir_root (.inl rfl) path) ?_
    intro r t hkept _ hnew
    cases r with
    | none => exact Safe.failed hkept.tidy
    | some ip =>
      have hmade := hnew ip rfl
      have htype := hmade.kind
      rw [type_of_inum hmade.inum] at htype
      exact (putLoop_sure hkept.tidy hmade.inum htype (size_of_bytes (hmade.empty rfl)) reads).safe.mono
        (Nat.le_refl _) fun _ u hq _ => .new t ip hr hkept hmade hq.1 hq.2.1
  | some ip =>
    have hip := resolve_inum h hr
    refine Safe.gets ?_
    split
    next => exact Safe.failed h
    next htype =>
      obtain ⟨t, heq, hedit, hfree, htype', hsize, -⟩ := itruncate_edits h hip (not_not.mp htype)
      refine Safe.gain heq hedit.toKept hfree ?_
        ((putLoop_sure hedit.tidy (hedit.inum hip) htype' hsize reads).safe.mono (Nat.le_refl _)
          fun _ u hq _ => .old ip hr (not_not.mp htype) (hq.1.trans hedit.node) hq.2.1)
      rw [fileNeed_of_file hr (not_not.mp htype)]
      omega

/-- The inode that an entry names is the one at the end of the path. -/
theorem Img.Names.resolve (hn : s.Names root path d j i) : s.resolve path = some i := by
  obtain ⟨name, hwalk, hne, hfind, -⟩ := hn
  rw [Img.resolve, Img.spot, hwalk, Option.bind_some, Img.at, if_neg hne, hfind]
  rfl

/-- The file or directory at the end of the path has lost its name. -/
def Removed (s t : Img) (path : Name) (ip : Nat) : Prop :=
  ∃ d j, s.Names root path d j ip ∧ t.node = unlinked s.sb s.node d j ip

theorem remove_safe (h : Tidy s) (hr : s.resolve path = some ip) :
    Safe 0 (unlinkAt root path >>= fun ok =>
      pure (if ok = true then Status.success else Status.failure)) s
      fun st t => st = .success → Removed s t path ip := by
  refine Safe.andThen (unlinkAt_safe h h.isDir_root path) ?_
  intro ok t hkept ⟨hunlinks, hnames⟩
  refine Safe.pure hkept.tidy fun hst => ?_
  cases ok with
  | false => cases hst
  | true =>
    obtain ⟨d, j, i, hn⟩ := hnames rfl
    obtain rfl : i = ip := Option.some.inj (hn.resolve.symm.trans hr)
    exact ⟨d, j, hn, hunlinks.node d j i hn⟩

theorem doRm_safe (h : Tidy s) (path : Name) : Safe 0 (doRm path) s fun st t =>
    st = .success → ∃ ip, (s.inode ip).type ≠ .dir ∧ Removed s t path ip := by
  refine Safe.read (lookup_eq h path) ?_
  cases hr : s.resolve path with
  | none => exact Safe.failed h
  | some ip =>
    refine Safe.gets ?_
    split
    next => exact Safe.failed h
    next hdir =>
      exact (remove_safe h hr).mono (Nat.le_refl 0) fun _ t hq hst => ⟨ip, hdir, hq hst⟩

theorem doRmdir_safe (h : Tidy s) (path : Name) : Safe 0 (doRmdir path) s fun st t =>
    st = .success → ∃ ip, s.IsDir ip ∧ (s.node ip).ents.countP (fun e => e.inum ≠ 0) = 2 ∧
      Removed s t path ip := by
  refine Safe.read (lookup_eq h path) ?_
  cases hr : s.resolve path with
  | none => exact Safe.failed h
  | some ip =>
    refine Safe.gets ?_
    split
    next => exact Safe.failed h
    next hdir =>
      have hd : s.IsDir ip := ⟨resolve_inum h hr, not_not.mp hdir⟩
      refine Safe.read (emptydir_eq h.sound hd) ?_
      split
      next hempty =>
        exact (remove_safe h hr).mono (Nat.le_refl 0) fun _ t hq hst =>
          ⟨ip, hd, of_decide_eq_true hempty, hq hst⟩
      next => exact Safe.failed h

theorem doMkdir_safe (h : Tidy s) (path : Name) : Safe 3 (doMkdir path) s fun st t =>
    st = .success → ∃ ip, Made s t .dir root path ip := by
  refine Safe.read (lookup_eq h path) ?_
  cases s.resolve path with
  | some ip => exact Safe.failed h
  | none =>
    have hnew := creatAt_safe h h.isDir_root (.inr rfl) path
    refine Safe.andThen hnew ?_
    intro r t hkept hmade
    refine Safe.pure hkept.tidy fun hst => ?_
    cases r with
    | none => cases hst
    | some ip => exact ⟨ip, hmade ip rfl⟩

/-! ### `do_ln` -/

/-- The file `sip` has got the name in the directory `d`. -/
def Linked (s t : Img) (d : Nat) (name : Name) (sip : Nat) : Prop :=
  s.IsDir d ∧ ∃ j, s.place d name = some j ∧ t.node = added s.node d j name sip

theorem link_safe (h : Tidy s) (hd : s.IsDir dip) (hsip : s.sb.Inum sip) (hroot : sip ≠ root)
    (name : Name) : Safe 2 (link dip name sip) s fun st t => st = .success → Linked s t dip name sip := by
  refine Safe.andThen (daddent_safe h hd hsip hroot name) ?_
  intro ok t hkept ⟨hentered, hplace⟩
  refine Safe.pure hkept.tidy fun hst => ?_
  cases ok with
  | false => cases hst
  | true =>
    obtain ⟨j, hj⟩ := hplace rfl
    rw [Entered, hj] at hentered
    exact ⟨hd, j, hj, hentered⟩

/-- Where `do_ln` puts the name: in the directory `dip`, or in the one that
`dname` names there, in which the name is not looked up. -/
def Img.linkSite (s : Img) (dip : Nat) (spath dname : Name) : Nat × Name :=
  if dname = [] then (dip, baseName spath)
  else (inodeOf (s.find dip dname)).elim (dip, dname) fun ip => (ip, baseName spath)

theorem linkIn_safe (h : Tidy s) (hd : s.IsDir dip) (hsip : s.sb.Inum sip) (hroot : sip ≠ root)
    (spath dname : Name) : Safe 2 (linkIn sip dip spath dname) s fun st t =>
      st = .success → Linked s t (s.linkSite dip spath dname).1 (s.linkSite dip spath dname).2 sip ∧
        (dname = [] → inodeOf (s.find dip (baseName spath)) = none) := by
  rw [linkIn, Img.linkSite]
  split
  next hnil =>
    refine Safe.read (dlookup_eq h.sound hd _) ?_
    cases hfind : inodeOf (s.find dip (baseName spath)) with
    | some ip => exact Safe.failed h
    | none =>
      exact (link_safe h hd hsip hroot _).mono (Nat.le_refl 2) fun _ t hq hst => ⟨hq hst, fun _ => rfl⟩
  next hne =>
    refine Safe.read (dlookup_eq h.sound hd _) ?_
    cases hfound : inodeOf (s.find dip dname) with
    | none =>
      exact (link_safe h hd hsip hroot _).mono (Nat.le_refl 2) fun _ t hq hst =>
        ⟨hq hst, fun hnil => absurd hnil hne⟩
    | some ip =>
      refine Safe.gets ?_
      split
      next => exact Safe.failed h
      next hdir =>
        exact (link_safe h ⟨find_inum hfound, not_not.mp hdir⟩ hsip hroot _).mono (Nat.le_refl 2)
          fun _ t hq hst => ⟨hq hst, fun hnil => absurd hnil hne⟩

theorem Tidy.ne_root (h : Tidy s) (htype : (s.inode i).type = .file) : i ≠ root := by
  rintro rfl
  rw [h.isDir_root.2] at htype
  cases htype

theorem doLn_safe (h : Tidy s) (spath dpath : Name) : Safe 2 (doLn spath dpath) s fun st t =>
    st = .success → ∃ sip dip, s.resolve spath = some sip ∧ (s.inode sip).type = .file ∧
      s.resolve (dirName dpath) = some dip ∧
      Linked s t (s.linkSite dip spath (baseName dpath)).1 (s.linkSite dip spath (baseName dpath)).2 sip ∧
        (baseName dpath = [] → inodeOf (s.find dip (baseName spath)) = none) := by
  refine Safe.read (lookup_eq h spath) ?_
  cases hs : s.resolve spath with
  | none => exact Safe.failed h
  | some sip =>
    refine Safe.gets ?_
    split
    next => exact Safe.failed h
    next htype =>
      have hroot := h.ne_root (not_not.mp htype)
      refine Safe.read (lookup_eq h (dirName dpath)) ?_
      cases hd : s.resolve (dirName dpath) with
      | none => exact Safe.failed h
      | some dip =>
        refine Safe.gets ?_
        split
        next => exact Safe.failed h
        next hdir =>
          exact (linkIn_safe h ⟨resolve_inum h hd, not_not.mp hdir⟩ (resolve_inum h hs) hroot _ _).mono
            (Nat.le_refl 2) fun _ t hq hst => ⟨sip, dip, rfl, not_not.mp htype, rfl, hq hst⟩

/-! ### `do_cp` -/

/-- A destination for the bytes of `sip`: a file without bytes. If it is not the
source the source is as it was. -/
structure Dest (s t : Img) (sip dip : Nat) : Prop where
  inum : t.sb.Inum dip
  type : (t.inode dip).type = .file
  size : (t.inode dip).size = 0
  source : dip ≠ sip → (t.inode sip).type = .file ∧ t.bytes sip = s.bytes sip

/-- Where `do_cp` makes a new file. -/
def Img.copySite (s : Img) (spath dpath : Name) : Option (Nat × Name) :=
  match s.resolve dpath with
  | none => (s.resolve (dirName dpath)).map fun d => (d, baseName dpath)
  | some dip => some (dip, baseName spath)

/-- The path leads to an inode that is free. A directory that is no longer named where
its `..` says can still have the number of one that was removed there. -/
def Img.Dangling (s : Img) (path : Name) : Prop :=
  ∃ ip, s.resolve path = some ip ∧ (s.inode ip).type = .free

/-- A file is new at the place for the copy. -/
def Copied (s t : Img) (spath dpath : Name) (ip : Nat) : Prop :=
  ∃ d name, s.copySite spath dpath = some (d, name) ∧ s.IsDir d ∧ Kept s t ∧
    Made s t .file d name ip

theorem Copied.kept (h : Copied s t spath dpath ip) : Kept s t := by
  obtain ⟨-, -, -, -, hkept, -⟩ := h
  exact hkept

theorem Copied.ne (h : Copied s t spath dpath ip) (hsip : s.sb.Inum sip)
    (htype : (s.inode sip).type = .file) : ip ≠ sip := by
  obtain ⟨_, _, -, -, -, hmade⟩ := h
  exact (hmade.others sip hsip ((type_of_inum hsip).trans htype)).2.2.symm

theorem creatAt_dest (h : Tidy s) (hsip : s.sb.Inum sip) (htype : (s.inode sip).type = .file)
    (hd : s.IsDir d) (hsite : s.copySite spath dpath = some (d, name)) :
    Safe 2 (creatAt d name .file) s fun r t => ∀ dip, r = some dip →
      Dest s t sip dip ∧ Copied s t spath dpath dip := by
  refine Ends.mono (creatAt_safe h hd (.inl rfl) name) ?_ fun _ _ he => he
  rintro r t ⟨hkept, hfree, hnew⟩
  refine ⟨hkept, hfree, fun dip hr => ?_⟩
  have hmade := hnew dip hr
  obtain ⟨hstype, hbytes, -⟩ := hmade.others sip hsip ((type_of_inum hsip).trans htype)
  refine ⟨⟨hmade.inum, (type_of_inum hmade.inum).symm.trans hmade.kind, size_of_bytes (hmade.empty rfl),
    fun _ => ⟨?_, hbytes⟩⟩, d, name, hsite, hd, hkept, hmade⟩
  exact (type_of_inum (hkept.inum hsip)).symm.trans hstype

theorem copyDest_new (h : Tidy s) (hsip : s.sb.Inum sip) (htype : (s.inode sip).type = .file)
    (spath : Name) (hlive : ¬ s.Dangling dpath) (hnew : ∀ dip, s.resolve dpath = some dip → (s.inode dip).type ≠ .file) :
    Safe 2 (copyDest spath dpath) s fun r t => ∀ dip, r = some dip →
      Dest s t sip dip ∧ Copied s t spath dpath dip := by
  refine Safe.read (lookup_eq h dpath) ?_
  cases hr : s.resolve dpath with
  | none =>
    dsimp only
    split
    next => exact Safe.pure h (by simp)
    next =>
      refine Safe.read (lookup_eq h (dirName dpath)) ?_
      cases hd : s.resolve (dirName dpath) with
      | none => exact Safe.pure h (by simp)
      | some ddip =>
        refine Safe.gets ?_
        split
        next => exact Safe.pure h (by simp)
        next hdir =>
          refine creatAt_dest h hsip htype ⟨resolve_inum h hd, not_not.mp hdir⟩ ?_
          rw [Img.copySite, hr, hd]
          rfl
  | some dip =>
    refine Safe.gets ?_
    cases hdtype : (s.inode dip).type with
    | dir =>
      refine creatAt_dest h hsip htype ⟨resolve_inum h hr, hdtype⟩ ?_
      rw [Img.copySite, hr]
    | file => exact absurd hdtype (hnew dip hr)
    | free => exact absurd ⟨dip, hr, hdtype⟩ hlive
    | dev => exact Safe.pure h (by simp)

theorem copyDest_onto (h : Tidy s) (hsip : s.sb.Inum sip) (htype : (s.inode sip).type = .file)
    (spath : Name) (hr : s.resolve dpath = some dip) (hdtype : (s.inode dip).type = .file) :
    ∃ t, copyDest spath dpath s = (.ok (some dip), t) ∧ Edited s t ∧
      s.free + fileCost (s.inode dip).size ≤ t.free ∧ Dest s t sip dip := by
  have hdip := resolve_inum h hr
  obtain ⟨t, heq, hedit, hfree, htype', hsize, hother⟩ := itruncate_edits h hdip hdtype
  refine ⟨t, ?_, hedit, hfree, hedit.inum hdip, htype', hsize, fun hne => ?_⟩
  · rw [copyDest, bind_of_eq (lookup_eq h dpath), hr]
    dsimp only
    rw [gets_bind, hdtype]
    dsimp only
    rw [bind_of_eq heq]
    rfl
  · have hfile := hother sip hne.symm hsip
    exact ⟨(congrArg File.type hfile).trans htype, congrArg File.data hfile⟩

theorem copyLoop_sure (h : Tidy t) (hsip : t.sb.Inum sip) (hdest : Dest s t sip dip) :
    Sure (fileCost (s.inode sip).size)
      (copyLoop sip dip ((t.inode sip).size / bufSize + 2) 0) t fun st u => u.node = t.node ∧
        u.bytes dip = (if dip = sip then [] else s.bytes sip) ∧
        (dip ≠ sip → u.bytes sip = s.bytes sip) ∧ st = .success := by
  by_cases hne : dip = sip
  · -- the source has just lost its bytes
    have hsize : (t.inode sip).size = 0 := hne ▸ hdest.size
    rw [copyLoop, Sure, ends_gets_bind, hsize, if_neg (Nat.lt_irrefl 0), ends_pure]
    refine ⟨h.kept, Nat.le_add_right _ _, rfl, ?_, fun hbad => absurd hne hbad, rfl⟩
    rw [if_pos hne, hne, bytes_of_size hsize]
  · obtain ⟨hstype, hsbytes⟩ := hdest.source hne
    have hssize : (t.inode sip).size = (s.inode sip).size := by
      rw [← length_bytes, hsbytes, length_bytes]
    have hfuel : (t.inode sip).size < 0 + bufSize * ((t.inode sip).size / bufSize + 1) := by
      unfold bufSize
      omega
    have hspec := copyLoop_spec (Ne.symm hne) _ 0 t h hsip hstype hdest.inum hdest.type
      (by rw [hdest.size, Nat.zero_min]) hfuel
    rw [hdest.size, fileCost_zero, hssize] at hspec
    rw [hssize]
    refine hspec.mono ?_ fun _ _ hlt => hlt
    rintro st u ⟨⟨hedit, hfree⟩, hext, hst⟩
    refine ⟨hedit.toKept, by rwa [fileCost_zero] at hfree, hedit.node, ?_, fun _ => ?_, hst⟩
    · rw [if_neg hne, hext.bytes, bytes_of_size hdest.size, hsbytes]
      rfl
    · exact (congrArg File.data (hext.other sip (Ne.symm hne) hsip)).trans hsbytes

/-- What `do_cp` does: the bytes go to a file that is there, and loses its own
first, or to a new one. -/
inductive Duplicated (s t : Img) (spath dpath : Name) (sip : Nat) : Prop where
  | onto (dip : Nat) : s.resolve dpath = some dip → (s.inode dip).type = .file → t.node = s.node →
      t.bytes dip = (if dip = sip then [] else s.bytes sip) →
      (dip ≠ sip → t.bytes sip = s.bytes sip) → Duplicated s t spath dpath sip
  | new (u : Img) (ip : Nat) : (∀ dip, s.resolve dpath = some dip → (s.inode dip).type ≠ .file) →
      Copied s u spath dpath ip → t.node = u.node → t.bytes ip = s.bytes sip →
      t.bytes sip = s.bytes sip → Duplicated s t spath dpath sip

theorem copyTo_safe (h : Tidy s) (hsip : s.sb.Inum sip) (htype : (s.inode sip).type = .file)
    (spath : Name) (hlive : ¬ s.Dangling dpath) :
    Safe (s.fileNeed dpath (s.inode sip).size) (copyDest spath dpath >>= fun dip =>
      match dip with
      | none => pure .failure
      | some dip => do
          let d ← gets fun img => img.inode sip
          copyLoop sip dip (d.size / bufSize + 2) 0) s fun st t => st = .success →
            Duplicated s t spath dpath sip := by
  by_cases hfile : ∃ dip, s.resolve dpath = some dip ∧ (s.inode dip).type = .file
  · obtain ⟨dip, hr, hdtype⟩ := hfile
    obtain ⟨t, heq, hedit, hfree, hdest⟩ := copyDest_onto h hsip htype spath hr hdtype
    refine Safe.gain heq hedit.toKept hfree ?_ (Safe.gets
      ((copyLoop_sure hedit.tidy (hedit.inum hsip) hdest).safe.mono (Nat.le_refl _)
        fun _ u hq _ => .onto dip hr hdtype (hq.1.trans hedit.node) hq.2.1 hq.2.2.1))
    rw [fileNeed_of_file hr hdtype]
    omega
  · have hnew : ∀ dip, s.resolve dpath = some dip → (s.inode dip).type ≠ .file :=
      fun dip hr hdtype => hfile ⟨dip, hr, hdtype⟩
    rw [fileNeed_of_new hnew]
    refine Safe.bind (copyDest_new h hsip htype spath hlive hnew) ?_
    intro r t hkept _ hdest
    cases r with
    | none => exact Safe.failed hkept.tidy
    | some dip =>
      obtain ⟨hdest, hcopied⟩ := hdest dip rfl
      have hne := hcopied.ne hsip htype
      refine Safe.gets ((copyLoop_sure hkept.tidy (hkept.inum hsip) hdest).safe.mono (Nat.le_refl _) ?_)
      rintro _ u ⟨hnode, hbytes, hsbytes, -⟩ _
      rw [if_neg hne] at hbytes
      exact .new t dip hnew hcopied hnode hbytes (hsbytes hne)

theorem doCp_safe (h : Tidy s) (spath : Name) (hlive : ¬ s.Dangling dpath) :
    Safe ((Cmd.cp spath dpath).need s) (doCp spath dpath) s fun st t => st = .success →
      ∃ sip, s.resolve spath = some sip ∧ (s.inode sip).type = .file ∧
        Duplicated s t spath dpath sip := by
  rw [Cmd.need]
  refine Safe.read (lookup_eq h spath) ?_
  cases hr : s.resolve spath with
  | none => exact Safe.failed h
  | some sip =>
    refine Safe.gets ?_
    split
    next => exact Safe.failed h
    next htype =>
      exact (copyTo_safe h (resolve_inum h hr) (not_not.mp htype) spath hlive).mono (Nat.le_refl _)
        fun _ t hq hst => ⟨sip, rfl, not_not.mp htype, hq hst⟩

/-! ### `do_mv` -/

/-- `sip` has been entered in the directory `d`, then the entry at `spath` cleared. -/
def Shifted (s t : Img) (d : Nat) (name : Name) (sip : Nat) (spath : Name) : Prop :=
  ∃ u, Kept s u ∧ Entered s u d name sip ∧ Spared s u d ∧ Kept u t ∧ Unlinks u t root spath

/-- The same, and its `..` written. -/
def Moved (s t : Img) (d : Nat) (name : Name) (sip : Nat) (spath : Name) : Prop :=
  ∃ v, Shifted s v d name sip spath ∧ Kept v t ∧ Reparented v t d sip

theorem Shifted.kept (h : Shifted s t d name sip spath) : Kept s t := by
  obtain ⟨u, hsu, -, -, hut, -⟩ := h
  exact hsu.trans hut

theorem Moved.kept (h : Moved s t d name sip spath) : Kept s t := by
  obtain ⟨v, hshift, hvt, -⟩ := h
  exact hshift.kept.trans hvt

theorem Shifted.type (h : Shifted s t d name sip spath) (c : Nat) :
    (t.node c).type = (s.node c).type ∨ (t.node c).type = .free := by
  obtain ⟨u, -, hentered, -, -, hunlinks⟩ := h
  rw [← hentered.type c]
  exact hunlinks.type c

theorem not_dir_of_file (hi : s.sb.Inum i) (hfile : (s.inode i).type = .file) :
    (s.node i).type ≠ .dir := by
  rw [type_of_inum hi, hfile]
  decide

theorem Shifted.reparented (h : Shifted s t d name sip spath) (hfile : (s.node sip).type ≠ .dir) :
    Reparented t t d sip := by
  refine .refl fun hdir => ?_
  rw [isDir_iff] at hdir
  rcases h.type sip with hsame | hgone
  · exact hfile (hsame ▸ hdir)
  · rw [hgone] at hdir
    cases hdir

theorem reparent_runs (h : Tidy s) (hdip : s.sb.Inum dip) (hsip : s.sb.Inum sip) :
    ∃ t, reparent dip sip s = (.ok .success, t) ∧ Kept s t ∧ s.free ≤ t.free ∧
      Reparented s t dip sip := by
  by_cases hdir : (s.inode sip).type = .dir
  · obtain ⟨r, t, heq, hspec⟩ := dmkparlink_runs h hdip hsip
    refine ⟨t, ?_, hspec⟩
    rw [reparent, gets_bind, if_pos hdir, bind_of_eq heq]
    rfl
  · refine ⟨s, ?_, h.kept, Nat.le_refl _, .refl fun hbad => hdir hbad.2⟩
    rw [reparent, gets_bind, if_neg hdir]
    rfl

/-- **The common part**: the entry is made, the old one goes, and `m` writes `..`
of a directory. It stops only if there are no blocks for the entry. -/
theorem enter_runs (h : Tidy s) (hd : s.IsDir dip) (hsip : s.sb.Inum sip) (hroot : sip ≠ root)
    (name spath : Name) {m : FsM Status}
    (hm : ∀ v, Shifted s v dip name sip spath → ∃ t, m v = (.ok .success, t) ∧ Kept v t ∧
      v.free ≤ t.free ∧ Reparented v t dip sip) :
    Ends (daddent dip name sip >>= fun _ => unlinkAt root spath >>= fun _ => m) s
      (fun st t => st = .success ∧ s.free ≤ t.free + 2 ∧ ¬ s.Starved 0 dip name ∧
        Moved s t dip name sip spath)
      (fun _ t => s.free < 2 ∧ s.Starved 0 dip name ∧ Halted s t) := by
  refine Ends.bind ((daddent_runs h hd hsip hroot name).mono (fun _ _ hq => hq) ?_) ?_
  · rintro e t ⟨hstarved, hlt, hhalt⟩
    exact ⟨hlt, hstarved, hhalt⟩
  rintro _ u ⟨hroom, hsu, hfree, hentered, hspared, -⟩
  obtain ⟨_, v, heq, huv, hfree', hunlinks, -⟩ := unlinkAt_runs hsu.tidy hsu.tidy.isDir_root spath
  have hshift : Shifted s v dip name sip spath := ⟨u, hsu, hentered, hspared, huv, hunlinks⟩
  obtain ⟨t, heq', hvt, hfree'', hparent⟩ := hm v hshift
  exact Ends.bind_eq heq (Ends.of_eq heq' ⟨rfl, by omega, hroom, v, hshift, hvt, hparent⟩)

/-- The inode of an entry that goes is not the directory it is in, if it is a
file or an empty directory. -/
theorem Img.Names.ne_of_found (hn : s.Names dip name d j i) (h : Tidy s) (hd : s.IsDir dip)
    (hplain : Plain name) (hfound : inodeOf (s.find dip name) = some ip)
    (hip : (s.inode ip).type = .file ∨ (s.node ip).ents.countP (fun e => e.inum ≠ 0) = 2) :
    i ≠ dip := by
  obtain ⟨hd', hge, -, hi, -, nm, hj⟩ := hn.spec h hd
  obtain ⟨rfl, hfind⟩ := hn.of_plain hplain
  rw [hfind] at hfound
  obtain rfl : i = ip := Option.some.inj hfound
  rintro rfl
  rcases hip with hfile | hempty
  · rw [hd.2] at hfile
    cases hfile
  · exact absurd ((h.dirOk hd).dead_of_empty hempty hge hj) (Nat.ne_of_gt hi.1)

/-- What `do_mv` replaces: an empty directory by a directory, a file by a file. -/
def Img.Yields (s : Img) (ip sip : Nat) : Prop :=
  s.IsDir ip ∧ s.IsDir sip ∧ (s.node ip).ents.countP (fun e => e.inum ≠ 0) = 2 ∨
    (s.inode ip).type = .file ∧ (s.inode sip).type = .file

theorem Img.Yields.type (h : s.Yields ip sip) :
    (s.inode ip).type = .dir ∧ (s.inode sip).type = .dir ∧
        (s.node ip).ents.countP (fun e => e.inum ≠ 0) = 2 ∨
      (s.inode ip).type = .file ∧ (s.inode sip).type = .file :=
  h.imp (fun hdir => ⟨hdir.1.2, hdir.2.1.2, hdir.2.2⟩) id

/-- The directory `dip` is made ready for the name. -/
inductive Opens (s w : Img) (sip dip : Nat) (name : Name) : Prop where
  | new : inodeOf (s.find dip name) = none → w = s → Opens s w sip dip name
  | overwrite (ip : Nat) : inodeOf (s.find dip name) = some ip → s.Yields ip sip → Kept s w →
      Unlinks s w dip name → w.IsDir dip → Opens s w sip dip name

theorem replace_runs (h : Tidy s) (hd : s.IsDir dip) (hsip : s.sb.Inum sip) (hroot : sip ≠ root)
    (hplain : Plain name) (spath : Name) (hfound : inodeOf (s.find dip name) = some ip)
    (hip : s.Yields ip sip) {m : FsM Status}
    (hm : ∀ w v, Unlinks s w dip name → Shifted w v dip name sip spath → Kept s v →
      ∃ t, m v = (.ok .success, t) ∧ Kept v t ∧ v.free ≤ t.free ∧ Reparented v t dip sip) :
    Ends (unlinkAt dip name >>= fun _ => daddent dip name sip >>= fun _ =>
        unlinkAt root spath >>= fun _ => m) s
      (fun st t => st = .success ∧ s.free ≤ t.free + 2 ∧ ∃ w, Opens s w sip dip name ∧
        ¬ w.Starved 0 dip name ∧ Moved w t dip name sip spath)
      (fun _ t => s.free < 2 ∧ ∃ w, Opens s w sip dip name ∧ w.Starved 0 dip name ∧ Halted w t) := by
  obtain ⟨_, w, heq, hw, hfree, hunlinks, -⟩ := unlinkAt_runs h hd name
  have hd' : w.IsDir dip := hunlinks.isDir dip hd fun d j hn =>
    hn.ne_of_found h hd hplain hfound (hip.elim (fun hdir => .inr hdir.2.2) fun hfile => .inl hfile.1) rfl
  have hopens : Opens s w sip dip name := .overwrite ip hfound hip hw hunlinks hd'
  refine Ends.bind_eq heq ((enter_runs hw.tidy hd' (hw.inum hsip) hroot name spath fun v hshift =>
    hm w v hunlinks hshift (hw.trans hshift.kept)).mono ?_ ?_)
  · rintro st t ⟨hst, hfree', hroom, hmoved⟩
    exact ⟨hst, by omega, w, hopens, hroom, hmoved⟩
  · rintro e t ⟨hlt, hstarved, hhalt⟩
    exact ⟨by omega, w, hopens, hstarved, hhalt⟩

/-- **What `do_mv` does in the directory `dip`.** -/
theorem moveInto_runs (h : Tidy s) (hd : s.IsDir dip) (hsip : s.sb.Inum sip) (hroot : sip ≠ root)
    (hplain : Plain name) (spath : Name) : Ends (moveInto sip dip spath name) s
      (fun st t => st = .failure ∧ t = s ∧
          (∃ ip, inodeOf (s.find dip name) = some ip ∧ ¬ s.Yields ip sip) ∨
        st = .success ∧ s.free ≤ t.free + 2 ∧ ∃ w, Opens s w sip dip name ∧
          ¬ w.Starved 0 dip name ∧ Moved w t dip name sip spath)
      (fun _ t => s.free < 2 ∧ ∃ w, Opens s w sip dip name ∧ w.Starved 0 dip name ∧ Halted w t) := by
  refine Ends.bind_eq (dlookup_eq h.sound hd _) ?_
  cases hfound : inodeOf (s.find dip name) with
  | none =>
    refine (enter_runs h hd hsip hroot name spath fun v hshift => ?_).mono ?_ ?_
    · have hv := hshift.kept
      exact reparent_runs hv.tidy (hv.inum hd.1) (hv.inum hsip)
    · rintro st t ⟨hst, hfree, hroom, hmoved⟩
      exact .inr ⟨hst, hfree, s, .new hfound rfl, hroom, hmoved⟩
    · rintro e t ⟨hlt, hstarved, hhalt⟩
      exact ⟨hlt, s, .new hfound rfl, hstarved, hhalt⟩
  | some ip =>
    have hip := find_inum hfound
    rw [ends_gets_bind]
    dsimp only [id]
    cases htype : (s.inode ip).type with
    | dir =>
      dsimp only
      split
      next hsdir => exact .inl ⟨rfl, rfl, ip, rfl, fun hy => by simpa [htype, hsdir] using hy.type⟩
      next hsdir =>
        have hdirs : s.IsDir ip ∧ s.IsDir sip := ⟨⟨hip, htype⟩, hsip, not_not.mp hsdir⟩
        refine Ends.bind_eq (emptydir_eq h.sound hdirs.1) ?_
        split
        next hempty =>
          refine (replace_runs h hd hsip hroot hplain spath hfound
            (.inl ⟨hdirs.1, hdirs.2, of_decide_eq_true hempty⟩) ?_).mono (fun _ _ => .inr) fun _ _ hq => hq
          intro w v _ _ hv
          obtain ⟨_, t, heq, hspec⟩ := dmkparlink_runs hv.tidy (hv.inum hd.1) (hv.inum hsip)
          exact ⟨t, by rw [bind_of_eq heq]; rfl, hspec⟩
        next hempty =>
          refine .inl ⟨rfl, rfl, ip, rfl, fun hy => hempty ?_⟩
          rcases hy.type with hdir | hfile
          · exact decide_eq_true hdir.2.2
          · rw [htype] at hfile
            cases hfile.1
    | file =>
      dsimp only
      split
      next hsfile => exact .inl ⟨rfl, rfl, ip, rfl, fun hy => by simpa [htype, hsfile] using hy.type⟩
      next hsfile =>
        have hsfile := not_not.mp hsfile
        refine (replace_runs h hd hsip hroot hplain spath hfound (.inr ⟨htype, hsfile⟩) ?_).mono
          (fun _ _ => .inr) fun _ _ hq => hq
        intro w v hunlinks hshift hv
        exact ⟨v, rfl, hv.tidy.kept, Nat.le_refl _, hshift.reparented
          (hunlinks.not_dir (not_dir_of_file hsip hsfile))⟩
    | free => exact .inl ⟨rfl, rfl, ip, rfl, fun hy => by simpa [htype] using hy.type⟩
    | dev => exact .inl ⟨rfl, rfl, ip, rfl, fun hy => by simpa [htype] using hy.type⟩

/-- How `do_mv` can stop when it has taken the name of the other file away. -/
def OntoStop (s w : Img) (dpath : Name) (e : Stop) (t : Img) : Prop :=
  e.Benign ∧ t = w ∧ (∀ d, w.resolve (dirName dpath) = some d → ¬ w.IsDir d) ∨
    s.free < 2 ∧ ∃ d, w.resolve (dirName dpath) = some d ∧ w.IsDir d ∧
      w.Starved 0 d (baseName dpath) ∧ Halted w t

/-- **What `do_mv` does with a file in the place of another**: the name of that
one goes first, then its directory is looked up. -/
theorem moveOnto_runs (h : Tidy s) (hsip : s.sb.Inum sip) (hroot : sip ≠ root) (spath dpath : Name) :
    Ends (moveOnto sip spath dpath) s
      (fun st t => st = .failure ∧ t = s ∧ (s.inode sip).type ≠ .file ∨
        st = .success ∧ s.free ≤ t.free + 2 ∧ (s.inode sip).type = .file ∧ ∃ w d, Kept s w ∧
          Unlinks s w root dpath ∧ w.resolve (dirName dpath) = some d ∧ w.IsDir d ∧
          ¬ w.Starved 0 d (baseName dpath) ∧ Moved w t d (baseName dpath) sip spath)
      (fun e t => (s.inode sip).type = .file ∧ ∃ w, Kept s w ∧ Unlinks s w root dpath ∧
        OntoStop s w dpath e t) := by
  rw [moveOnto, ends_gets_bind]
  split
  next hfile => exact .inl ⟨rfl, rfl, hfile⟩
  next hfile =>
    have hfile := not_not.mp hfile
    obtain ⟨_, w, heq, hw, hfree, hunlinks, -⟩ := unlinkAt_runs h h.isDir_root dpath
    refine Ends.bind_eq heq (Ends.bind_eq (lookup_eq hw.tidy (dirName dpath)) ?_)
    -- the directory may have gone with the file, if the path led back to it
    have hassert : (∀ d, w.resolve (dirName dpath) = some d → ¬ w.IsDir d) →
        (s.inode sip).type = .file ∧ ∃ w', Kept s w' ∧ Unlinks s w' root dpath ∧
          OntoStop s w' dpath .assert w :=
      fun hno => ⟨hfile, w, hw, hunlinks, .inl ⟨.inr rfl, rfl, hno⟩⟩
    cases hr : w.resolve (dirName dpath) with
    | none =>
      refine hassert fun d hd => ?_
      rw [hr] at hd
      cases hd
    | some d =>
      by_cases hdir : w.IsDir d
      · refine Ends.bind_eq (assertDir_eq hdir) ((enter_runs hw.tidy hdir (hw.inum hsip) hroot _ spath
          fun v hshift => ⟨v, rfl, hshift.kept.tidy.kept, Nat.le_refl _, hshift.reparented
            (hunlinks.not_dir (not_dir_of_file hsip hfile))⟩).mono ?_ ?_)
        · rintro st t ⟨hst, hfree', hroom, hmoved⟩
          exact .inr ⟨hst, by omega, hfile, w, d, hw, hunlinks, hr, hdir, hroom, hmoved⟩
        · rintro e t ⟨hlt, hstarved, hhalt⟩
          exact ⟨hfile, w, hw, hunlinks, .inr ⟨by omega, d, hr, hdir, hstarved, hhalt⟩⟩
      · have hstop : assertDir d w = (.error .assert, w) := by
          rw [assertDir, gets_bind, if_neg fun htype => hdir ⟨resolve_inum hw.tidy hr, htype⟩]
          rfl
        refine Ends.bind_error hstop (hassert fun d' hd' => ?_)
        cases hr.symm.trans hd'
        exact hdir

/-- The directory in which `do_mv` makes a name that is not there. -/
def Img.Parent (s : Img) (dpath : Name) (d : Nat) : Prop :=
  baseName dpath ≠ [] ∧ s.resolve (dirName dpath) = some d ∧ s.IsDir d

/-- **What `do_mv` does for a name that is not there.** -/
theorem moveTo_runs (h : Tidy s) (hsip : s.sb.Inum sip) (hroot : sip ≠ root) (spath dpath : Name) :
    Ends (moveTo sip spath dpath) s
      (fun st t => st = .failure ∧ t = s ∧ (∀ d, ¬ s.Parent dpath d) ∨
        st = .success ∧ s.free ≤ t.free + 2 ∧ ∃ d, s.Parent dpath d ∧
          ¬ s.Starved 0 d (baseName dpath) ∧ Moved s t d (baseName dpath) sip spath)
      (fun _ t => s.free < 2 ∧ ∃ d, s.Parent dpath d ∧ s.Starved 0 d (baseName dpath) ∧ Halted s t) := by
  rw [moveTo]
  split
  next hnil => exact .inl ⟨rfl, rfl, fun d hd => hd.1 hnil⟩
  next hne =>
    refine Ends.bind_eq (lookup_eq h (dirName dpath)) ?_
    cases hr : s.resolve (dirName dpath) with
    | none =>
      refine .inl ⟨rfl, rfl, fun d hd => ?_⟩
      rw [hd.2.1] at hr
      cases hr
    | some d =>
      dsimp only
      rw [ends_gets_bind]
      split
      next hdir =>
        refine .inl ⟨rfl, rfl, fun d' hd' => ?_⟩
        cases hr.symm.trans hd'.2.1
        exact hdir hd'.2.2.2
      next hdir =>
        have hd : s.IsDir d := ⟨resolve_inum h hr, not_not.mp hdir⟩
        refine (enter_runs h hd hsip hroot _ spath fun v hshift => ?_).mono ?_ ?_
        · have hv := hshift.kept
          exact reparent_runs hv.tidy (hv.inum hd.1) (hv.inum hsip)
        · rintro st t ⟨hst, hfree, hroom, hmoved⟩
          exact .inr ⟨hst, hfree, d, ⟨hne, hr, hd⟩, hroom, hmoved⟩
        · rintro e t ⟨hlt, hstarved, hhalt⟩
          exact ⟨hlt, d, ⟨hne, hr, hd⟩, hstarved, hhalt⟩

/-- What `do_mv` does before it enters `sip`: the image that it has come to, the
directory and the name. -/
inductive Begins (s w : Img) (spath dpath : Name) (sip d : Nat) (name : Name) : Prop where
  | new : s.resolve dpath = none → s.Parent dpath d → name = baseName dpath → w = s →
      Begins s w spath dpath sip d name
  | into : s.resolve dpath = some d → s.IsDir d → name = baseName spath → Opens s w sip d name →
      Begins s w spath dpath sip d name
  | onto (dip : Nat) : s.resolve dpath = some dip → (s.inode dip).type = .file →
      (s.inode sip).type = .file → name = baseName dpath → Kept s w → Unlinks s w root dpath →
      w.resolve (dirName dpath) = some d → w.IsDir d → Begins s w spath dpath sip d name

theorem Begins.kept (h : Begins s w spath dpath sip d name) (hs : Tidy s) : Kept s w := by
  cases h with
  | new _ _ _ hw => exact hw ▸ hs.kept
  | into _ _ _ hopens =>
    cases hopens with
    | new _ hw => exact hw ▸ hs.kept
    | overwrite ip _ _ hw => exact hw
  | onto dip _ _ _ _ hw => exact hw

theorem doMv_eq (h : Tidy s) (hres : s.resolve spath = some sip) (hroot : sip ≠ root) :
    doMv spath dpath s = (match s.resolve dpath with
      | none => moveTo sip spath dpath
      | some dip =>
        match (s.inode dip).type with
        | .dir => moveInto sip dip spath (baseName spath)
        | .file => moveOnto sip spath dpath
        | _ => pure .failure) s := by
  rw [doMv, bind_of_eq (lookup_eq h spath), hres]
  dsimp only
  rw [if_neg hroot, bind_of_eq (lookup_eq h dpath)]
  cases s.resolve dpath with
  | none => rfl
  | some dip => rfl

/-- What `do_mv` does. -/
def Renamed (s t : Img) (spath dpath : Name) (sip : Nat) : Prop :=
  ∃ w d name, Begins s w spath dpath sip d name ∧ Moved w t d name sip spath

theorem doMv_safe (h : Tidy s) (spath dpath : Name) : Safe 2 (doMv spath dpath) s fun st t =>
    st = .success → ∃ sip, s.resolve spath = some sip ∧ sip ≠ root ∧ Renamed s t spath dpath sip := by
  have hfail : ∀ {st : Status} {t : Img} {P : Prop}, st = .failure → t = s →
      Kept s t ∧ s.free ≤ t.free + 2 ∧ (st = .success → P) := by
    rintro st t P rfl rfl
    exact ⟨h.kept, by omega, fun hst => by cases hst⟩
  cases hs : s.resolve spath with
  | none =>
    rw [Safe, doMv]
    refine Ends.bind_eq (lookup_eq h spath) ?_
    rw [hs]
    exact hfail rfl rfl
  | some sip =>
    have hsip := resolve_inum h hs
    by_cases hroot : sip = root
    · rw [Safe, doMv]
      refine Ends.bind_eq (lookup_eq h spath) ?_
      rw [hs]
      dsimp only
      rw [if_pos hroot]
      exact hfail rfl rfl
    have hdone : ∀ {st : Status} {t w : Img} {d : Nat} {name : Name}, s.free ≤ t.free + 2 →
        Begins s w spath dpath sip d name → Moved w t d name sip spath → Kept s t ∧
          s.free ≤ t.free + 2 ∧ (st = .success → ∃ sip', some sip = some sip' ∧ sip' ≠ root ∧
            Renamed s t spath dpath sip') := fun hfree hbegins hmoved =>
      ⟨(hbegins.kept h).trans hmoved.kept, hfree, fun _ => ⟨sip, rfl, hroot, _, _, _, hbegins, hmoved⟩⟩
    rw [Safe, Ends, doMv_eq h hs hroot]
    cases hd : s.resolve dpath with
    | none =>
      refine (moveTo_runs h hsip hroot spath dpath).mono ?_ fun _ _ hq => .inl hq.1
      rintro st t (⟨hst, ht, -⟩ | ⟨-, hfree, d, hparent, -, hmoved⟩)
      · exact hfail hst ht
      · exact hdone hfree (.new hd hparent rfl rfl) hmoved
    | some dip =>
      have hdip := resolve_inum h hd
      dsimp only
      cases htype : (s.inode dip).type with
      | dir =>
        refine (moveInto_runs h ⟨hdip, htype⟩ hsip hroot (baseName_plain spath) spath).mono ?_
          fun _ _ hq => .inl hq.1
        rintro st t (⟨hst, ht, -⟩ | ⟨-, hfree, w, hopens, -, hmoved⟩)
        · exact hfail hst ht
        · exact hdone hfree (.into hd ⟨hdip, htype⟩ rfl hopens) hmoved
      | file =>
        refine (moveOnto_runs h hsip hroot spath dpath).mono ?_ ?_
        · rintro st t (⟨hst, ht, -⟩ | ⟨-, hfree, hfile, w, d, hw, hunlinks, hr, hdir, -, hmoved⟩)
          · exact hfail hst ht
          · exact hdone hfree (.onto dip hd htype hfile rfl hw hunlinks hr hdir) hmoved
        · rintro e t ⟨-, w, hw, -, ⟨hbenign, rfl, -⟩ | ⟨hlt, -⟩⟩
          · exact .inr ⟨hw, hbenign⟩
          · exact .inl hlt
      | free => exact hfail rfl rfl
      | dev => exact hfail rfl rfl

end Yaos.Fs
