import Yaos.Fs.Format

/-!
# What reading, writing and truncating do to the files

The three functions below the commands, on any image whose blocks are accounted
for. A write is read back; truncating exchanges exactly the blocks between the
old size and the new one (`Exchanged`). Neither concerns another file.
-/

namespace Yaos.Fs

open Yaos.Lib Prog

variable {s t v : Img} {i n m off size : Nat} {buf : List UInt8}

/-! ## Writing and reading -/

theorem take_drop_overwrite {data : List UInt8} (h : off ≤ data.length) :
    ((overwrite data off buf).drop off).take buf.length = buf := by
  have hlen : (data.take off).length = off := by simp [h]
  rw [overwrite, List.drop_left' hlen, List.take_left]

theorem getElem?_overwrite {data : List UInt8} (h : off ≤ data.length) {o : Nat}
    (ho : o < data.length) (hout : o < off ∨ off + buf.length ≤ o) :
    (overwrite data off buf)[o]? = data[o]? := by
  have hlt : o < (overwrite data off buf).length := by
    rw [length_overwrite h]
    omega
  rw [List.getElem?_eq_getElem hlt, getElem_overwrite h, if_neg (by omega),
    List.getD_eq_getElem _ _ ho, List.getElem?_eq_getElem ho]

/-- **A write is read back.** With enough free blocks `iwrite` writes all bytes,
`iread` returns them, and nothing else has changed; `iread` changes nothing. -/
theorem iwrite_iread (h : Blocks s) (hi : s.sb.Inum i) (ht : (s.inode i).type ≠ .dev)
    (hoff : off ≤ (s.inode i).size) (hle : off + buf.length ≤ maxFileSize)
    (hfree : slots (divceil (max (s.inode i).size (off + buf.length)) bsize) ≤
      s.free + (s.file i).cost) :
    ∃ t, iwrite i buf off s = (.ok (some buf.length), t) ∧
      iread i buf.length off t = (.ok (some buf), t) ∧
      (t.inode i).size = max (s.inode i).size (off + buf.length) ∧
      (∀ o, o < (s.inode i).size → o < off ∨ off + buf.length ≤ o →
        (t.bytes i)[o]? = (s.bytes i)[o]?) ∧
      (∀ j, j ≠ i → s.sb.Inum j → t.file j = s.file j) ∧
      ∀ j n o, s.sb.Inum j → (iread j n o s).2 = s ∧ (iread j n o t).2 = t := by
  obtain ⟨_, v, heq, rfl, t, hw⟩ := ((iwrite_written h hi ht hoff hle).mono (fun _ _ hq => hq)
    fun _ _ hlt => absurd hlt (Nat.not_lt_of_le hfree)).exists_eq
  have hframe := hw.wrote.frame
  have hsb : v.sb = s.sb := hw.retagged.sb.trans hframe.sb
  have howned := hframe.owned_retagged hw.retagged
  have hextents : ∀ {j}, s.sb.Inum j → Extent v j (divceil (v.inode j).size bsize) :=
    fun hj => hframe.extents h hw.retagged hw.extent hj
  have hlen : off ≤ (s.bytes i).length := by rwa [length_bytes]
  have h32 : maxFileSize < 2 ^ 32 := by decide
  refine ⟨v, heq, ?_, hw.size, ?_, fun j hne hj => hframe.file_of_ne h hw.retagged hne hj, ?_⟩
  · have hreach : off ≤ (v.inode i).size := by
      rw [hw.size]
      omega
    rw [howned.iread_eq (hsb ▸ hi) (hextents hi) (by rw [hw.type]; exact ht) hreach (by omega),
      hw.bytes hoff, take_drop_overwrite hlen]
  · intro o ho hout
    rw [hw.bytes hoff]
    exact getElem?_overwrite hlen (by rwa [length_bytes]) hout
  · intro j n o hj
    exact ⟨h.owned.iread_state hj (h.extent j hj) n o,
      howned.iread_state (hsb ▸ hj) (hextents hj) n o⟩

/-- One byte behind the first block of the root directory. -/
theorem iwrite_iread_byte : ∃ t, iwrite root [7] bsize (formatted (small 4)) = (.ok (some 1), t) ∧
    iread root 1 bsize t = (.ok (some [7]), t) := by
  obtain ⟨t, hwrite, hread, -⟩ := iwrite_iread (s := formatted (small 4)) (i := root)
    (tidy_small (by decide) (by decide)).sound.blocks (by decide) (by decide)
    (show bsize ≤ bsize from Nat.le_refl _) (show bsize + [(7 : UInt8)].length ≤ maxFileSize by decide)
    (by decide +kernel)
  exact ⟨t, hwrite, hread⟩

/-! ## Truncating -/

/-- The file `i` needed `n` blocks and needs `m`: the blocks that it needs no
more are free, those that it needs in addition were, and no other block is
concerned. -/
structure Exchanged (s t : Img) (i n m : Nat) : Prop where
  kept : ∀ k, k < numSlots → Needs n k → Needs m k → t.slot i k = s.slot i k
  cleared : ∀ k, k < numSlots → ¬ Needs m k → t.slot i k = 0
  taken : ∀ k, k < numSlots → Needs m k → ¬ Needs n k →
    t.sb.validDataBlock (t.slot i k) = true ∧ s.bit (t.slot i k) = false
  bits : ∀ b, s.sb.validDataBlock b = true → (t.bit b = true ↔
    (s.bit b = true ∧ ∀ k, k < numSlots → Needs n k → ¬ Needs m k → s.slot i k ≠ b) ∨
      ∃ k, k < numSlots ∧ Needs m k ∧ ¬ Needs n k ∧ t.slot i k = b)
  outside : ∀ b, s.sb.validDataBlock b = false → t.bit b = s.bit b
  others : ∀ j k, j ≠ i → s.sb.IsSlot j k → t.slot j k = s.slot j k

section Resized

variable (h : Resized s t i n m) (hs : Owned s) (he : Extent s i n) (hi : s.sb.Inum i)

include h hs he hi

theorem Resized.taken {k : Nat} (hk : k < numSlots) (hm : Needs m k) (hn : ¬ Needs n k) :
    t.sb.validDataBlock (t.slot i k) = true ∧ s.bit (t.slot i k) = false := by
  have hit : t.sb.IsSlot i k := h.frame.sb ▸ ⟨hi, hk⟩
  have h0 := (h.extent.iff k hk).mpr hm
  have hv := h.frame.owned.valid i k hit h0
  refine ⟨hv, Bool.eq_false_iff.mpr fun hbit => ?_⟩
  obtain ⟨j, k', hjk, hslot⟩ := (hs.bits _ (h.frame.sb ▸ hv)).mp hbit
  by_cases hj : j = i
  · subst hj
    -- the file has grown, so the slot is needed now as before
    have hn' : Needs n k' := (he.iff k' hjk.2).mp (hslot ▸ h0)
    have hlt : n ≤ m := by
      by_contra hle
      exact hn (hm.mono (Nat.le_of_not_le hle))
    have hsame := (h.kept k' hjk.2 hn' (hn'.mono hlt)).trans hslot
    obtain ⟨-, rfl⟩ := h.frame.owned.inj j k j k' hit (h.frame.sb ▸ hjk) h0 hsame
    exact hn hn'
  · have hsame := (h.frame.slot j k' hj hjk).trans hslot
    exact hj (h.frame.owned.inj i k j k' hit (h.frame.sb ▸ hjk) h0 hsame).1

theorem Resized.bits {b : Nat} (hb : s.sb.validDataBlock b = true) : t.bit b = true ↔
    (s.bit b = true ∧ ∀ k, k < numSlots → Needs n k → ¬ Needs m k → s.slot i k ≠ b) ∨
      ∃ k, k < numSlots ∧ Needs m k ∧ ¬ Needs n k ∧ t.slot i k = b := by
  have h0 := valid_ne_zero hb
  rw [h.frame.owned.bits b (h.frame.sb ▸ hb), hs.bits b hb, h.frame.sb]
  constructor
  · rintro ⟨j, k, hjk, rfl⟩
    by_cases hj : j = i
    · subst hj
      have hm := (h.extent.iff k hjk.2).mp h0
      by_cases hn : Needs n k
      · have hsame := h.kept k hjk.2 hn hm
        refine .inl ⟨⟨j, k, hjk, hsame.symm⟩, fun k' hk' _ hm' heq => ?_⟩
        rw [hsame] at h0 heq
        obtain ⟨-, rfl⟩ := hs.inj j k j k' hjk ⟨hi, hk'⟩ h0 heq
        exact hm' hm
      · exact .inr ⟨k, hjk.2, hm, hn, rfl⟩
    · have hsame := h.frame.slot j k hj hjk
      refine .inl ⟨⟨j, k, hjk, hsame.symm⟩, fun k' hk' _ _ heq => ?_⟩
      rw [hsame] at h0 heq
      exact hj (hs.inj j k i k' hjk ⟨hi, hk'⟩ h0 heq).1.symm
  · rintro (⟨⟨j, k, hjk, rfl⟩, hstays⟩ | ⟨k, hk, -, -, rfl⟩)
    · by_cases hj : j = i
      · subst hj
        have hn := (he.iff k hjk.2).mp h0
        have hm : Needs m k := by
          by_contra hm
          exact hstays k hjk.2 hn hm rfl
        exact ⟨j, k, hjk, h.kept k hjk.2 hn hm⟩
      · exact ⟨j, k, hjk, h.frame.slot j k hj hjk⟩
    · exact ⟨i, k, ⟨hi, hk⟩, rfl⟩

theorem Resized.exchanged (hr : Retagged t v i) : Exchanged s v i n m where
  kept k hk hn hm := by rw [hr.slot, h.kept k hk hn hm]
  cleared k hk hm := by rw [hr.slot, h.extent.slot_eq_zero hk hm]
  taken k hk hm hn := by
    rw [hr.slot, hr.sb]
    exact h.taken hs he hi hk hm hn
  bits b hb := by
    rw [hr.bit, h.bits hs he hi hb]
    simp only [hr.slot]
  outside b hb := by rw [hr.bit, h.frame.outside b hb]
  others j k hj hjk := by rw [hr.slot, h.frame.slot j k hj hjk]

end Resized

/-- **`itruncate`** keeps the bytes before the new end and fills with zeros; it
exchanges the blocks between the two sizes, and keeps the other files. -/
theorem itruncate_contents (h : Blocks s) (hi : s.sb.Inum i) (ht : (s.inode i).type ≠ .dev)
    (hmax : size ≤ maxFileSize) (hfree : slots (divceil size bsize) ≤ s.free + (s.file i).cost) :
    ∃ t, itruncate i size s = (.ok (), t) ∧
      t.bytes i = (s.bytes i).take size ++ List.replicate (size - (s.inode i).size) 0 ∧
      Exchanged s t i (divceil (s.inode i).size bsize) (divceil size bsize) ∧
      ∀ j, j ≠ i → s.sb.Inum j → t.file j = s.file j := by
  obtain ⟨_, v, heq, t, htrim⟩ := ((itruncate_trims h hi ht hmax).mono (fun _ _ hq => hq)
    fun _ _ hlt => absurd hlt (Nat.not_lt_of_le hfree)).exists_eq
  refine ⟨v, heq, htrim.bytes, ?_, ?_⟩
  · exact htrim.resized.exchanged h.owned (h.extent i hi) hi htrim.retagged
  · exact fun j hne hj => htrim.resized.frame.file_of_ne h htrim.retagged hne hj

/-- The root directory loses half of its entries. -/
theorem itruncate_contents_half : ∃ t, itruncate root 256 (formatted (small 4)) = (.ok (), t) ∧
    t.bytes root = ((formatted (small 4)).bytes root).take 256 := by
  obtain ⟨t, heq, hbytes, -⟩ := itruncate_contents (s := formatted (small 4)) (i := root)
    (tidy_small (by decide) (by decide)).sound.blocks (by decide) (by decide)
    (show 256 ≤ maxFileSize by decide) (by decide +kernel)
  exact ⟨t, heq, by rw [hbytes]; exact List.append_nil _⟩

end Yaos.Fs
