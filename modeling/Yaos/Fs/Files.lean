import Yaos.Fs.Bytes
import Yaos.Fs.Directory

/-!
# Files

Above the blocks an image is a table of files (`Img.file`). Writing replaces
one file and keeps the others (`Becomes`), and the number of free blocks changes
by the difference of what the file needs. A write that stops does so because the
free blocks are not enough.
-/

namespace Yaos.Fs

open Yaos.Lib Prog Function

/-- A file: what its inode says, and its bytes. -/
structure File where
  type : FileType
  nlink : Nat
  data : List UInt8

def Img.file (img : Img) (i : Nat) : File := ⟨(img.inode i).type, (img.inode i).nlink, img.bytes i⟩

/-- The blocks that a file needs, indirect block included. -/
def File.cost (f : File) : Nat := slots (divceil f.data.length bsize)

variable {s t u : Img} {i j k n m b off : Nat} {buf : List UInt8} {f : File}

/-- The file `i` is now `f`; every other one is as before. -/
structure Becomes (s t : Img) (i : Nat) (f : File) : Prop where
  blocks : Blocks t
  sb : t.sb = s.sb
  outside : ∀ c, s.sb.validDataBlock c = false → t.bit c = s.bit c
  self : t.file i = f
  other : ∀ i', i' ≠ i → s.sb.Inum i' → t.file i' = s.file i'
  free : t.free + f.cost = s.free + (s.file i).cost

theorem Becomes.trans {f' : File} (h : Becomes s t i f) (h' : Becomes t u i f') : Becomes s u i f' where
  blocks := h'.blocks
  sb := h'.sb.trans h.sb
  outside c hc := (h'.outside c (h.sb ▸ hc)).trans (h.outside c hc)
  self := h'.self
  other j hne hj := (h'.other j hne (h.sb ▸ hj)).trans (h.other j hne hj)
  free := by
    rw [h'.free, h.self, h.free]

/-- Only what the inode `i` says about its file has changed, not where the
file is. -/
structure Retagged (s t : Img) (i : Nat) : Prop where
  sb : t.sb = s.sb
  bit : t.bit = s.bit
  data : t.data = s.data
  inode : ∀ i', i' ≠ i → t.inode i' = s.inode i'
  addrs : ∀ k, k ≤ ndirect → (t.inode i).addrs k = (s.inode i).addrs k

theorem Retagged.slot (h : Retagged s t i) (i' k : Nat) : t.slot i' k = s.slot i' k := by
  have haddrs : ∀ k, k ≤ ndirect → (t.inode i').addrs k = (s.inode i').addrs k := by
    by_cases hi : i' = i
    · subst hi
      exact h.addrs
    · rw [h.inode i' hi]
      exact fun _ _ => rfl
  rw [Img.slot, Img.slot, haddrs ndirect (Nat.le_refl _), h.data]
  split
  next hk => rw [haddrs k hk]
  next => rfl

theorem Retagged.byte (h : Retagged s t i) (i' o : Nat) : t.byte i' o = s.byte i' o := by
  rw [Img.byte, Img.byte, Img.block, Img.block, h.slot, h.data]

theorem Frame.byte (h : Frame s t i) (hs : Blocks s) {i' o : Nat} (hne : i' ≠ i)
    (hi' : s.sb.Inum i') (ho : o < (s.inode i').size) : t.byte i' o = s.byte i' o := by
  have he := hs.extent i' hi'
  have hj := div_lt_divceil ho
  have hslot : s.sb.IsSlot i' (slotOf (o / bsize)) := ⟨hi', slotOf_lt (Nat.lt_of_lt_of_le hj he.le)⟩
  rw [Img.byte, Img.byte, Img.block, h.slot i' _ hne hslot,
    h.data i' _ hne hslot slotOf_ne (he.block_ne_zero hj)]
  rfl

section Framed

variable {v : Img} (h : Frame s t i) (hs : Blocks s) (hr : Retagged t v i)

include h hr

theorem Frame.attrs_of_ne {i' : Nat} (hne : i' ≠ i) : (v.inode i').attrs = (s.inode i').attrs := by
  rw [hr.inode i' hne, h.attrs i']

theorem Frame.owned_retagged : Owned v := h.owned.congr hr.sb hr.bit fun i' k _ => hr.slot i' k

include hs

theorem Frame.file_of_ne {i' : Nat} (hne : i' ≠ i) (hi' : s.sb.Inum i') : v.file i' = s.file i' := by
  have hattrs := h.attrs_of_ne hr hne
  have htype : (v.inode i').type = (s.inode i').type := congrArg Prod.fst hattrs
  have hnlink : (v.inode i').nlink = (s.inode i').nlink := congrArg (fun a => a.2.1) hattrs
  have hsize : (v.inode i').size = (s.inode i').size := congrArg (fun a => a.2.2) hattrs
  rw [Img.file, Img.file, htype, hnlink, Img.bytes, Img.bytes, hsize]
  congr 1
  apply List.map_congr_left
  intro o ho
  rw [hr.byte, h.byte hs hne hi' (List.mem_range.mp ho)]

theorem Frame.extents (he : Extent t i (divceil (v.inode i).size bsize)) {i' : Nat}
    (hi' : s.sb.Inum i') : Extent v i' (divceil (v.inode i').size bsize) := by
  by_cases hne : i' = i
  · subst hne
    exact ⟨he.le, fun k hk => by rw [hr.slot, he.iff k hk]⟩
  · have hsize : (v.inode i').size = (s.inode i').size :=
      congrArg (fun a => a.2.2) (h.attrs_of_ne hr hne)
    have he' := hs.extent i' hi'
    rw [hsize]
    refine ⟨he'.le, fun k hk => ?_⟩
    rw [hr.slot, h.slot i' k hne ⟨hi', hk⟩, he'.iff k hk]

/-- **A change to the blocks of a file, and to its inode, is a change to the
file**, if in the end its blocks are those that its size requires. -/
theorem Frame.becomes (he : Extent t i (divceil (v.inode i).size bsize))
    (hempty : (v.inode i).type = .free ∨ (v.inode i).type = .dev → (v.inode i).size = 0)
    (hfree : t.free + slots (divceil (v.inode i).size bsize) =
      s.free + slots (divceil (s.inode i).size bsize)) : Becomes s v i (v.file i) := by
  have hsb : v.sb = s.sb := hr.sb.trans h.sb
  refine ⟨⟨h.owned_retagged hr, fun i' hi' => h.extents hs hr he (hsb ▸ hi'), ?_⟩, hsb, ?_, rfl,
    fun i' hne hi' => h.file_of_ne hs hr hne hi', ?_⟩
  · intro i' hi'
    rw [hsb] at hi'
    by_cases hne : i' = i
    · subst hne
      exact hempty
    · have hattrs := h.attrs_of_ne hr hne
      have htype : (v.inode i').type = (s.inode i').type := congrArg Prod.fst hattrs
      have hsize : (v.inode i').size = (s.inode i').size := congrArg (fun a => a.2.2) hattrs
      rw [htype, hsize]
      exact hs.empty i' hi'
  · intro c hc
    rw [hr.bit, h.outside c hc]
  · rw [File.cost, File.cost, free_congr hr.sb hr.bit]
    simp only [Img.file, length_bytes]
    exact hfree

end Framed

/-! ## Changes to inodes -/

theorem retagged_setInode {g : Inode → Inode}
    (hg : ∀ k, k ≤ ndirect → (g (s.inode i)).addrs k = (s.inode i).addrs k) :
    Retagged s (s.setInode i g) i := by
  refine ⟨rfl, rfl, rfl, fun i' hne => update_of_ne hne _ _, fun k hk => ?_⟩
  show (update s.inode i (g (s.inode i)) i).addrs k = _
  rw [update_self, hg k hk]

theorem inode_setInode {g : Inode → Inode} : (s.setInode i g).inode i = g (s.inode i) :=
  update_self ..

theorem Blocks.setInode (h : Blocks s) (hi : s.sb.Inum i) {g : Inode → Inode}
    (hsize : (g (s.inode i)).size = (s.inode i).size)
    (hg : ∀ k, k ≤ ndirect → (g (s.inode i)).addrs k = (s.inode i).addrs k)
    (hempty : (g (s.inode i)).type = .free ∨ (g (s.inode i)).type = .dev → (s.inode i).size = 0) :
    Becomes s (s.setInode i g) i ⟨(g (s.inode i)).type, (g (s.inode i)).nlink, s.bytes i⟩ := by
  have hr := retagged_setInode hg
  have hsize' : ((s.setInode i g).inode i).size = (s.inode i).size := by rw [inode_setInode, hsize]
  have hbecomes := (Frame.refl h.owned).becomes h hr
    (by rw [hsize']; exact h.extent i hi) (by rw [inode_setInode, hsize]; exact hempty)
    (by rw [hsize'])
  have hfile : (s.setInode i g).file i = ⟨(g (s.inode i)).type, (g (s.inode i)).nlink, s.bytes i⟩ := by
    rw [Img.file, Img.bytes, hsize', inode_setInode]
    congr 1
    exact List.map_congr_left fun o _ => hr.byte i o
  rwa [hfile] at hbecomes

/-! ## `iwrite` -/

/-- A part of a byte string is replaced; the string may get longer. -/
def overwrite (data : List UInt8) (off : Nat) (buf : List UInt8) : List UInt8 :=
  data.take off ++ (buf ++ data.drop (off + buf.length))

theorem length_overwrite {data : List UInt8} (h : off ≤ data.length) :
    (overwrite data off buf).length = max data.length (off + buf.length) := by
  simp [overwrite]
  omega

theorem overwrite_end {data : List UInt8} (h : data.length = off) :
    overwrite data off buf = data ++ buf := by
  rw [overwrite, List.take_of_length_le (by omega), List.drop_of_length_le (by omega), List.append_nil]

theorem getElem_overwrite {data : List UInt8} (h : off ≤ data.length) {o : Nat}
    (ho : o < (overwrite data off buf).length) :
    (overwrite data off buf)[o] =
      if off ≤ o ∧ o < off + buf.length then buf.getD (o - off) 0 else data.getD o 0 := by
  rw [length_overwrite h] at ho
  have hlen : (data.take off).length = off := by simp [h]
  simp only [overwrite, List.getElem_append, hlen]
  by_cases hlt : o < off
  · rw [dif_pos hlt, if_neg (by omega), List.getElem_take, List.getD_eq_getElem]
  · rw [dif_neg hlt]
    split
    next hb => rw [if_pos (by omega), List.getD_eq_getElem]
    next hb =>
      rw [if_neg (by omega), List.getElem_drop, List.getD_eq_getElem _ _ (by omega)]
      congr 1
      omega

/-- The bytes of a file after its inode has been given its new size. -/
theorem Wrote.bytes {v : Img} (h : Wrote s t i (divceil (s.inode i).size bsize) off buf)
    (hr : Retagged t v i) (hoff : off ≤ (s.inode i).size)
    (hsize : (v.inode i).size = max (s.inode i).size (off + buf.length)) :
    v.bytes i = overwrite (s.bytes i) off buf := by
  apply List.ext_getElem
  · rw [length_bytes, length_overwrite (by simpa), length_bytes, hsize]
  · intro o ho ho'
    rw [length_bytes, hsize] at ho
    rw [getElem_overwrite (by simpa)]
    simp only [Img.bytes, List.getElem_map, List.getElem_range]
    rw [hr.byte]
    split
    next hin =>
      have := h.new (o - off) (by omega)
      rwa [show off + (o - off) = o by omega] at this
    next hout =>
      have hlt : o < (s.inode i).size := by omega
      rw [h.kept o (Nat.lt_of_lt_of_le hlt (le_divceil_mul _)) (by omega)]
      simp [hlt]

theorem cost_file : (s.file i).cost = slots (divceil (s.inode i).size bsize) := by
  simp [File.cost, Img.file]

/-- `iwrite` has written to the blocks of a file, then its size to the inode. -/
structure Written (s t v : Img) (i off : Nat) (buf : List UInt8) : Prop where
  wrote : Wrote s t i (divceil (s.inode i).size bsize) off buf
  retagged : Retagged t v i
  type : (v.inode i).type = (s.inode i).type
  nlink : (v.inode i).nlink = (s.inode i).nlink
  size : (v.inode i).size = max (s.inode i).size (off + buf.length)

/-- **What `iwrite` does** within the limits: it writes all bytes, or the free
blocks are not enough. -/
theorem iwrite_written (h : Blocks s) (hi : s.sb.Inum i) (ht : (s.inode i).type ≠ .dev)
    (hoff : off ≤ (s.inode i).size) (hle : off + buf.length ≤ maxFileSize) :
    Ends (iwrite i buf off) s
      (fun r v => r = some buf.length ∧ ∃ t, Written s t v i off buf)
      (fun _ _ => s.free + (s.file i).cost <
        slots (divceil (max (s.inode i).size (off + buf.length)) bsize)) := by
  have h32 : maxFileSize < 2 ^ 32 := by decide
  rw [iwrite, ends_gets_bind, if_neg ht, if_neg (by omega), cost_file, ← divceil_max]
  refine Ends.bind (iwriteLoop_spec i _ _ 0 off buf s h.owned hi (h.extent i hi)
    (Nat.le_trans hoff (le_divceil_mul _)) hle (Nat.lt_succ_self _)) ?_
  intro r t hr
  obtain ⟨rfl, hw⟩ := hr
  rw [ends_modify_bind, ends_pure]
  have hattrs := hw.frame.attrs i
  have hsize : (t.inode i).size = (s.inode i).size := congrArg (fun a => a.2.2) hattrs
  have htype : (t.inode i).type = (s.inode i).type := congrArg Prod.fst hattrs
  have hnlink : (t.inode i).nlink = (s.inode i).nlink := congrArg (fun a => a.2.1) hattrs
  refine ⟨by rw [Nat.zero_add], t, ?_⟩
  -- the size is written only if the file has grown
  split
  · refine ⟨hw, retagged_setInode fun _ _ => rfl, ?_, ?_, ?_⟩ <;> rw [inode_setInode]
    · exact htype
    · exact hnlink
    · dsimp only
      omega
  · exact ⟨hw, ⟨rfl, rfl, rfl, fun _ _ => rfl, fun _ _ => rfl⟩, htype, hnlink, by omega⟩

theorem Written.bytes {v : Img} (h : Written s t v i off buf) (hoff : off ≤ (s.inode i).size) :
    v.bytes i = overwrite (s.bytes i) off buf := h.wrote.bytes h.retagged hoff h.size

theorem Written.extent {v : Img} (h : Written s t v i off buf) :
    Extent t i (divceil (v.inode i).size bsize) := by
  rw [h.size, ← divceil_max]
  exact h.wrote.extent

theorem iwrite_spec (h : Blocks s) (hi : s.sb.Inum i)
    (ht : (s.inode i).type ≠ .dev ∧ (s.inode i).type ≠ .free) (hoff : off ≤ (s.inode i).size)
    (hle : off + buf.length ≤ maxFileSize) :
    Ends (iwrite i buf off) s
      (fun r t => r = some buf.length ∧
        Becomes s t i { s.file i with data := overwrite (s.bytes i) off buf })
      (fun _ _ => s.free + (s.file i).cost <
        slots (divceil (max (s.inode i).size (off + buf.length)) bsize)) := by
  refine (iwrite_written h hi ht.1 hoff hle).mono ?_ fun _ _ hlt => hlt
  rintro r v ⟨rfl, t, hw⟩
  have hbecomes := hw.wrote.frame.becomes h hw.retagged hw.extent
    (by rw [hw.type]; exact fun hc => (hc.elim ht.2 ht.1).elim)
    (by rw [hw.size, ← divceil_max]; exact hw.wrote.free)
  rw [Img.file, hw.bytes hoff, hw.type, hw.nlink] at hbecomes
  exact ⟨rfl, hbecomes⟩

/-- A write to one block stops, if it does, before it has changed a file. -/
theorem iwrite_halted (h : Blocks s) (hi : s.sb.Inum i) (hoff : off ≤ (s.inode i).size)
    (hle : off + buf.length ≤ maxFileSize) (hone : off % bsize + buf.length ≤ bsize) :
    Ends (iwrite i buf off) s (fun _ _ => True) (fun _ t => Halted s t) := by
  have h32 : maxFileSize < 2 ^ 32 := by decide
  rw [iwrite, ends_gets_bind]
  split
  next => trivial
  next =>
    rw [if_neg (by omega)]
    -- the second round of the loop has nothing to write
    have hloop : Ends (iwriteLoop i (buf.length + 1) buf 0 off) s (fun _ _ => True)
        (fun _ t => Halted s t) := by
      rw [iwriteLoop]
      split
      next hbuf =>
        have hlen : 0 < buf.length := List.length_pos_iff.mpr hbuf
        have hj : off / bsize ≤ divceil (s.inode i).size bsize := by
          have := le_divceil_mul (s.inode i).size
          unfold bsize at this ⊢
          omega
        have hj' : off / bsize < ndirect + nindirect := by
          unfold maxFileSize at hle
          exact div_bsize_lt (by omega)
        refine Ends.bind ((bmap_spec h.owned hi (h.extent i hi) hj hj').mono (fun _ _ hmap => hmap)
          fun _ _ hstop => hstop.2) ?_
        intro b t _
        rw [ends_gets_bind]
        split
        next =>
          have hmin : min buf.length (bsize - off % bsize) = buf.length := by omega
          obtain ⟨n, hn⟩ : ∃ n, buf.length = n + 1 := ⟨buf.length - 1, by omega⟩
          rw [ends_modify_bind, hmin, List.drop_length, hn, iwriteLoop, if_neg (by simp)]
          trivial
        next => trivial
      next => trivial
    exact hloop.bind fun _ _ _ => trivial

theorem Halted.byte (h : Halted s t) (hs : Blocks s) (hi : s.sb.Inum i) {o : Nat}
    (ho : o < (s.inode i).size) : t.byte i o = s.byte i o := by
  have he := hs.extent i hi
  have hj := div_lt_divceil ho
  have hslot : s.sb.IsSlot i (slotOf (o / bsize)) := ⟨hi, slotOf_lt (Nat.lt_of_lt_of_le hj he.le)⟩
  rw [Img.byte, Img.byte, Img.block, h.slot i _ hslot (he.block_ne_zero hj),
    h.data i _ hslot slotOf_ne (he.block_ne_zero hj)]
  rfl

theorem Halted.file (h : Halted s t) (hs : Blocks s) (hi : s.sb.Inum i) : t.file i = s.file i := by
  have hattrs := h.attrs i
  have htype : (t.inode i).type = (s.inode i).type := congrArg Prod.fst hattrs
  have hnlink : (t.inode i).nlink = (s.inode i).nlink := congrArg (fun a => a.2.1) hattrs
  have hsize : (t.inode i).size = (s.inode i).size := congrArg (fun a => a.2.2) hattrs
  rw [Img.file, Img.file, htype, hnlink, Img.bytes, Img.bytes, hsize]
  congr 1
  exact List.map_congr_left fun o ho => h.byte hs hi (List.mem_range.mp ho)

theorem iwrite_eq_none (hle : maxFileSize < off + buf.length) : iwrite i buf off s = (.ok none, s) := by
  rw [iwrite, gets_bind]
  split
  · rfl
  · rw [if_pos (by omega)]
    rfl

/-! ## `ialloc`, `ifree` and links -/

def Img.HasInode (s : Img) : Prop := ∃ i, s.sb.Inum i ∧ (s.inode i).type = .free

/-- **What `ialloc` does.** -/
theorem ialloc_spec (h : Blocks s) {type : FileType} :
    Ends (ialloc type) s
      (fun i t => s.sb.Inum i ∧ (s.inode i).type = .free ∧ Becomes s t i ⟨type, 0, []⟩)
      (fun e t => e = .noFreeInodes ∧ t = s ∧ ¬ s.HasInode) := by
  rw [ialloc, ends_gets_bind]
  cases hfind : (List.range' 1 (s.sb.ninodes - 1)).find? fun i => (s.inode i).type = .free with
  | none =>
    simp only [id, hfind]
    refine ⟨rfl, rfl, ?_⟩
    rintro ⟨i, hi, htype⟩
    have hmem : i ∈ List.range' 1 (s.sb.ninodes - 1) := by
      rw [List.mem_range'_1]
      have hpos := hi.1
      have hlt := hi.2
      omega
    simpa [htype] using List.find?_eq_none.mp hfind i hmem
  | some i =>
    have htype : (s.inode i).type = .free := by simpa using List.find?_some hfind
    have hmem := List.mem_of_find?_eq_some hfind
    rw [List.mem_range'_1] at hmem
    have hi : s.sb.Inum i := ⟨by omega, by omega⟩
    have hsize : (s.inode i).size = 0 := h.empty i hi (.inl htype)
    simp only [id, hfind, ends_modify_bind, ends_pure]
    refine ⟨hi, htype, ?_⟩
    have he : Extent s i 0 := by
      have he := h.extent i hi
      rwa [hsize] at he
    have hbytes : s.bytes i = [] := by simp [Img.bytes, hsize]
    have := h.setInode hi (g := fun _ => ⟨type, 0, 0, fun _ => 0⟩) hsize.symm
      (fun k hk => by
        rw [← slot_of_le hk]
        exact (he.slot_eq_zero (Nat.lt_of_le_of_lt hk (by decide)) not_needs_zero).symm)
      (fun _ => hsize)
    rwa [hbytes] at this

theorem iget_of_inum {sb : Super} (hi : sb.Inum i) : sb.iget i = some i := if_pos hi

theorem ifree_eq (hi : s.sb.Inum i) :
    ifree i s = (.ok (), s.setInode i fun d => { d with type := .free }) := by
  rw [ifree, gets_bind, iget_of_inum hi]
  rfl

theorem Blocks.ifree (h : Blocks s) (hi : s.sb.Inum i) (hsize : (s.inode i).size = 0) :
    Becomes s (s.setInode i fun d => { d with type := .free }) i { s.file i with type := .free } :=
  h.setInode hi rfl (fun _ _ => rfl) fun _ => hsize

theorem Blocks.incLink (h : Blocks s) (hi : s.sb.Inum i) :
    Becomes s (s.incLink i) i { s.file i with nlink := ((s.file i).nlink + 1) % 2 ^ 16 } :=
  h.setInode hi rfl (fun _ _ => rfl) (h.empty i hi)

theorem Blocks.decLink (h : Blocks s) (hi : s.sb.Inum i) :
    Becomes s (s.decLink i) i { s.file i with nlink := ((s.file i).nlink + (2 ^ 16 - 1)) % 2 ^ 16 } :=
  h.setInode hi rfl (fun _ _ => rfl) (h.empty i hi)

end Yaos.Fs
