import Yaos.Fs.Blocks

/-!
# The blocks of a file, in order

A file of `n` blocks uses the slots that `n` blocks need (`Extent`). `bmap`
finds a block of the file, and appends one when it is asked for the block
behind the last.
-/

namespace Yaos.Fs

open Yaos.Lib Prog

/-- The inode has the slots of a file of `n` blocks. -/
structure Extent (img : Img) (i n : Nat) : Prop where
  le : n ≤ ndirect + nindirect
  iff : ∀ k, k < numSlots → (img.slot i k ≠ 0 ↔ Needs n k)

def Img.block (img : Img) (i j : Nat) : Nat := img.slot i (slotOf j)

def Img.byte (img : Img) (i o : Nat) : UInt8 := img.data (img.block i (o / bsize)) (o % bsize)

/-- Only the blocks of the file `i` have changed. -/
structure Frame (s t : Img) (i : Nat) : Prop where
  sb : t.sb = s.sb
  owned : Owned t
  outside : ∀ c, s.sb.validDataBlock c = false → t.bit c = s.bit c
  attrs : ∀ i', (t.inode i').attrs = (s.inode i').attrs
  slot : ∀ i' k, i' ≠ i → s.sb.IsSlot i' k → t.slot i' k = s.slot i' k
  data : ∀ i' k, i' ≠ i → s.sb.IsSlot i' k → k ≠ ndirect → s.slot i' k ≠ 0 →
    t.data (s.slot i' k) = s.data (s.slot i' k)

def SlotsKept (s t : Img) : Prop :=
  ∀ i k, s.sb.IsSlot i k → s.slot i k ≠ 0 → t.slot i k = s.slot i k

variable {s t u : Img} {i j k n m b : Nat}

/-! ## Numbers -/

theorem needs_slotOf : Needs n (slotOf j) ↔ j < n := by
  unfold slotOf
  split
  · rw [Needs, if_pos ‹_›]
  · rw [Needs, if_neg (by omega), if_neg (by omega)]
    omega

theorem not_needs_zero : ¬ Needs 0 k := by
  unfold Needs
  split_ifs <;> omega

theorem slotOf_lt (hj : j < ndirect + nindirect) : slotOf j < numSlots := by
  unfold slotOf numSlots
  split <;> omega

theorem slotOf_ne : slotOf j ≠ ndirect := by
  unfold slotOf
  split <;> omega

theorem slotOf_inj (h : slotOf j = slotOf k) : j = k := by
  unfold slotOf at h
  split at h <;> split at h <;> omega

theorem slots_mono (h : n ≤ m) : slots n ≤ slots m := by
  unfold slots
  split <;> split <;> omega

theorem slots_succ (hn : n ≠ ndirect) : slots (n + 1) = slots n + 1 := by
  unfold slots
  split <;> split <;> omega

theorem slots_succ_ndirect : slots (ndirect + 1) = slots ndirect + 2 := rfl

theorem needs_succ (hn : n ≠ ndirect) : Needs (n + 1) k ↔ k = slotOf n ∨ Needs n k := by
  unfold Needs slotOf
  split_ifs <;> omega

theorem needs_succ_ndirect :
    Needs (ndirect + 1) k ↔ k = slotOf ndirect ∨ k = ndirect ∨ Needs ndirect k := by
  unfold Needs slotOf
  split_ifs <;> omega

/-! ## Frames -/

theorem Frame.refl (h : Owned s) : Frame s s i :=
  ⟨rfl, h, fun _ _ => rfl, fun _ => rfl, fun _ _ _ _ => rfl, fun _ _ _ _ _ _ => rfl⟩

theorem Frame.trans (h : Frame s t i) (h' : Frame t u i) : Frame s u i where
  sb := h'.sb.trans h.sb
  owned := h'.owned
  outside c hc := (h'.outside c (h.sb ▸ hc)).trans (h.outside c hc)
  attrs i' := (h'.attrs i').trans (h.attrs i')
  slot i' k hi hik := (h'.slot i' k hi (h.sb ▸ hik)).trans (h.slot i' k hi hik)
  data i' k hi hik hk h0 := by
    have hslot := h.slot i' k hi hik
    rw [← h.data i' k hi hik hk h0, ← hslot]
    exact h'.data i' k hi (h.sb ▸ hik) hk (hslot ▸ h0)

theorem Attached.frame (h : Attached s t i k b) : Frame s t i where
  sb := h.sb
  owned := h.owned
  outside := h.outside
  attrs := h.attrs
  slot i' k' hi hik := by rw [h.slot i' k' hik, if_neg fun heq => hi heq.1]
  data i' k' _ hik hk h0 := h.data i' k' hik hk h0

theorem SlotsKept.trans (h : SlotsKept s t) (hsb : t.sb = s.sb) (h' : SlotsKept t u) :
    SlotsKept s u := by
  intro i k hik h0
  have hslot := h i k hik h0
  rw [h' i k (hsb ▸ hik) (hslot ▸ h0), hslot]

theorem Attached.slotsKept (h : Attached s t i k b) (h0 : s.slot i k = 0) : SlotsKept s t := by
  intro i' k' hik hne
  rw [h.slot i' k' hik, if_neg]
  rintro ⟨rfl, rfl⟩
  exact hne h0

/-! ## `bmap` -/

theorem Extent.block_ne_zero (h : Extent s i n) (hj : j < n) : s.block i j ≠ 0 :=
  (h.iff _ (slotOf_lt (Nat.lt_of_lt_of_le hj h.le))).mpr (needs_slotOf.mpr hj)

theorem Extent.slot_eq_zero (h : Extent s i n) (hk : k < numSlots) (hn : ¬ Needs n k) :
    s.slot i k = 0 := by
  by_contra h0
  exact hn ((h.iff k hk).mp h0)

theorem Owned.block_valid (h : Owned s) (hi : s.sb.Inum i) (he : Extent s i n) (hj : j < n) :
    s.sb.validDataBlock (s.block i j) = true :=
  h.valid i _ ⟨hi, slotOf_lt (Nat.lt_of_lt_of_le hj he.le)⟩ (he.block_ne_zero hj)

theorem deref_of_valid (hv : s.sb.validDataBlock b = true) : deref b s = (.ok (), s) := by
  rw [deref, gets_bind, if_pos hv]
  rfl

theorem bmap_of_lt (h : Owned s) (hi : s.sb.Inum i) (he : Extent s i n) (hj : j < n) :
    bmap i j s = (.ok (s.block i j), s) := by
  have h0 := he.block_ne_zero hj
  rw [Img.block] at h0 ⊢
  rw [bmap]
  split
  next hlt =>
    rw [slotOf, if_pos hlt, slot_of_le (Nat.le_of_lt hlt)] at h0 ⊢
    rw [gets_bind, ensure_of_ne h0]
  next hge =>
    have hle := he.le
    have hind : s.slot i ndirect ≠ 0 :=
      (he.iff ndirect (by decide)).mpr (by unfold Needs; split_ifs <;> omega)
    have hiaddr : (s.inode i).addrs ndirect = s.slot i ndirect := (slot_of_le (Nat.le_refl _)).symm
    rw [slotOf, if_neg hge] at h0 ⊢
    rw [slot_of_gt (by omega) hind, Nat.add_sub_add_right] at h0 ⊢
    rw [if_neg (by omega), gets_bind, hiaddr, bind_of_eq (ensure_of_ne hind),
      bind_of_eq (deref_of_valid (h.valid i _ (isSlot_ndirect hi) hind)), gets_bind, ensure_of_ne h0]

/-- `bmap` has found, or appended, the block `j` of a file of `n` blocks. -/
structure Mapped (s t : Img) (i n j b : Nat) : Prop where
  frame : Frame s t i
  extent : Extent t i (max n (j + 1))
  free : t.free + slots (max n (j + 1)) = s.free + slots n
  block : b = t.block i j
  slots : SlotsKept s t
  byte : ∀ o, o < n * bsize → t.byte i o = s.byte i o

theorem Attached.block_eq (h : Attached s t i k b) (hi : s.sb.Inum i) (h0 : s.slot i k = 0)
    (hj : j < ndirect + nindirect) (hne : s.block i j ≠ 0) : t.block i j = s.block i j := by
  rw [Img.block, h.slot _ _ ⟨hi, slotOf_lt hj⟩, if_neg]
  · rfl
  · intro heq
    rw [← heq.2] at h0
    exact hne h0

theorem div_bsize_lt {o : Nat} (ho : o < n * bsize) : o / bsize < n :=
  Nat.div_lt_of_lt_mul (by rwa [Nat.mul_comm] at ho)

theorem Attached.byte (h : Attached s t i k b) (hi : s.sb.Inum i) (h0 : s.slot i k = 0) {o : Nat}
    (ho : o / bsize < ndirect + nindirect) (hne : s.block i (o / bsize) ≠ 0) :
    t.byte i o = s.byte i o := by
  rw [Img.byte, Img.byte, h.block_eq hi h0 ho hne, Img.block,
    h.data i _ ⟨hi, slotOf_lt ho⟩ slotOf_ne hne]

theorem Attached.slot_ne_zero (h : Attached s t i k b) (hi : s.sb.Inum i) {k' : Nat}
    (hk' : k' < numSlots) : t.slot i k' ≠ 0 ↔ k' = k ∨ s.slot i k' ≠ 0 := by
  rw [h.slot i k' ⟨hi, hk'⟩]
  by_cases hk : k' = k
  · simp [hk, valid_ne_zero h.valid]
  · simp [hk]

theorem Attached.mapped (h : Attached s t i (slotOf n) b) (hi : s.sb.Inum i) (he : Extent s i n)
    (hn : n ≠ ndirect) (hle : n < ndirect + nindirect) : Mapped s t i n n b where
  frame := h.frame
  extent := by
    rw [Nat.max_eq_right (Nat.le_succ n)]
    refine ⟨hle, fun k hk => ?_⟩
    rw [h.slot_ne_zero hi hk, needs_succ hn, he.iff k hk]
  free := by
    rw [Nat.max_eq_right (Nat.le_succ n), slots_succ hn]
    have := h.free
    omega
  block := by rw [Img.block, h.slot i _ ⟨hi, slotOf_lt hle⟩, if_pos ⟨rfl, rfl⟩]
  slots := h.slotsKept (he.slot_eq_zero (slotOf_lt hle) (by simp [needs_slotOf]))
  byte o ho := by
    have hj := div_bsize_lt ho
    exact h.byte hi (he.slot_eq_zero (slotOf_lt hle) (by simp [needs_slotOf])) (by omega)
      (he.block_ne_zero hj)

/-- The first block behind the direct ones needs the indirect block and one of
its entries. -/
theorem Attached.mapped_ndirect {c : Nat} (h : Attached s t i ndirect c)
    (h' : Attached t u i (slotOf ndirect) b) (hi : s.sb.Inum i) (he : Extent s i ndirect)
    (h0 : t.slot i (slotOf ndirect) = 0) : Mapped s u i ndirect ndirect b where
  frame := h.frame.trans h'.frame
  extent := by
    rw [Nat.max_eq_right (Nat.le_succ ndirect)]
    refine ⟨by decide, fun k hk => ?_⟩
    rw [h'.slot_ne_zero (h.sb ▸ hi) hk, h.slot_ne_zero hi hk, needs_succ_ndirect, he.iff k hk]
  free := by
    rw [Nat.max_eq_right (Nat.le_succ ndirect), slots_succ_ndirect]
    have := h.free
    have := h'.free
    omega
  block := by rw [Img.block, h'.slot i _ ⟨h.sb ▸ hi, by decide⟩, if_pos ⟨rfl, rfl⟩]
  slots := (h.slotsKept (he.slot_eq_zero (by decide) (by decide))).trans h.sb (h'.slotsKept h0)
  byte o ho := by
    have hj := div_bsize_lt ho
    have hne := he.block_ne_zero hj
    have hlt : o / bsize < ndirect + nindirect := by omega
    have hind : s.slot i ndirect = 0 := he.slot_eq_zero (by decide) (by decide)
    rw [h'.byte (h.sb ▸ hi) h0 hlt (by rwa [h.block_eq hi hind hlt hne]), h.byte hi hind hlt hne]

/-- The end of `bmap`: an empty entry of the indirect block is filled. -/
theorem Owned.indirect_spec (h : Owned s) (hi : s.sb.Inum i) (hind : s.slot i ndirect ≠ 0)
    (hn : ndirect ≤ n) (hle : n < ndirect + nindirect) (h0 : s.slot i (n + 1) = 0) :
    Ends (do
        deref (s.slot i ndirect)
        let addr ← gets fun img => word (img.data (s.slot i ndirect)) (n - ndirect)
        ensure addr fun img b => img.setWord (s.slot i ndirect) (n - ndirect) b) s
      (fun b t => Attached s t i (n + 1) b) (fun _ t => s.free = 0 ∧ Halted s t) := by
  have hlt : ndirect < n + 1 := Nat.lt_succ_of_le hn
  refine Ends.bind_eq (deref_of_valid (h.valid i _ (isSlot_ndirect hi) hind)) ?_
  rw [slot_of_gt hlt hind, Nat.add_sub_add_right] at h0
  rw [ends_gets_bind, h0]
  apply h.ensure_spec
  intro b hv hb
  have := h.attached_word hi hlt (by unfold numSlots; omega) hind
    (by rwa [slot_of_gt hlt hind, Nat.add_sub_add_right]) hv hb
  rwa [Nat.add_sub_add_right] at this

/-- `bmap` behind the last block: it appends one, or the image is full. -/
theorem bmap_append (h : Owned s) (hi : s.sb.Inum i) (he : Extent s i n)
    (hle : n < ndirect + nindirect) :
    Ends (bmap i n) s (fun b t => Mapped s t i n n b)
      (fun _ t => s.free + slots n < slots (n + 1) ∧ Halted s t) := by
  have hempty : s.slot i (slotOf n) = 0 :=
    he.slot_eq_zero (slotOf_lt hle) (by simp [needs_slotOf])
  rw [bmap]
  split
  next hlt =>
    have hslot : slotOf n = n := if_pos hlt
    have hle' : n ≤ ndirect := Nat.le_of_lt hlt
    have hzero : s.slot i n = 0 := hslot ▸ hempty
    rw [ends_gets_bind, ← slot_of_le hle', hzero]
    apply (h.ensure_spec fun b hv hb => h.attached_addr hi hle' hzero hv hb).mono
    · intro b t hat
      have hat : Attached s t i (slotOf n) b := hslot.symm ▸ hat
      exact hat.mapped hi he (Nat.ne_of_lt hlt) hle
    · rintro e t ⟨hfree, hhalt⟩
      refine ⟨?_, hhalt⟩
      rw [hfree, slots_succ (Nat.ne_of_lt hlt)]
      omega
  next hge =>
    have hslot : slotOf n = n + 1 := if_neg hge
    rw [if_neg (by omega), ends_gets_bind, ← slot_of_le (Nat.le_refl _)]
    by_cases hn : n = ndirect
    · -- the first block behind the direct ones: the indirect block comes first
      subst hn
      have hind : s.slot i ndirect = 0 := he.slot_eq_zero (by decide) (by decide)
      rw [hind]
      have hfirst : Ends (ensure 0 fun img b => img.setAddr i ndirect b) s
          (fun b t => Attached s t i ndirect b) (fun _ t => s.free = 0 ∧ Halted s t) :=
        h.ensure_spec fun b hv hb => h.attached_addr hi (Nat.le_refl _) hind hv hb
      refine (hfirst.mono (fun _ _ hat => hat) fun e t hstop => ?_).bind fun c t hat => ?_
      · refine ⟨?_, hstop.2⟩
        rw [hstop.1, slots_succ_ndirect]
        omega
      · have hi' : t.sb.Inum i := hat.sb ▸ hi
        have hc : t.slot i ndirect = c := by
          rw [hat.slot i ndirect (isSlot_ndirect hi), if_pos ⟨rfl, rfl⟩]
        have hzero : t.slot i (slotOf ndirect) = 0 := by
          rw [hat.slot i _ ⟨hi, by decide⟩, if_neg fun heq => slotOf_ne heq.2, hempty]
        have hsecond := hat.owned.indirect_spec hi' (hc ▸ valid_ne_zero hat.valid) (Nat.le_refl _)
          (by decide) hzero
        rw [hc] at hsecond
        apply hsecond.mono
        · intro b u hat'
          exact hat.mapped_ndirect hat' hi he hzero
        · rintro e u ⟨hfree, hhalt⟩
          have := hat.free
          refine ⟨?_, hat.halted hind hhalt⟩
          rw [slots_succ_ndirect]
          omega
    · have hind : s.slot i ndirect ≠ 0 :=
        (he.iff ndirect (by decide)).mpr (by unfold Needs; split_ifs <;> omega)
      refine Ends.bind_eq (ensure_of_ne hind) ?_
      refine (h.indirect_spec hi hind (Nat.le_of_not_lt hge) hle (hslot ▸ hempty)).mono ?_ ?_
      · intro b t hat
        rw [← hslot] at hat
        exact hat.mapped hi he hn hle
      · rintro e t ⟨hfree, hhalt⟩
        refine ⟨?_, hhalt⟩
        rw [hfree, slots_succ hn]
        omega

/-- **What `bmap` does** for a block of the file or the one behind its last. -/
theorem bmap_spec (h : Owned s) (hi : s.sb.Inum i) (he : Extent s i n) (hj : j ≤ n)
    (hle : j < ndirect + nindirect) :
    Ends (bmap i j) s (fun b t => Mapped s t i n j b)
      (fun _ t => s.free + slots n < slots (max n (j + 1)) ∧ Halted s t) := by
  by_cases hlt : j < n
  · have hmax : max n (j + 1) = n := Nat.max_eq_left hlt
    refine Ends.of_eq (bmap_of_lt h hi he hlt) ⟨.refl h, ?_, ?_, rfl, fun _ _ _ _ => rfl, fun _ _ => rfl⟩
    · rwa [hmax]
    · rw [hmax]
  · obtain rfl : j = n := by omega
    rw [Nat.max_eq_right (Nat.le_succ j)]
    exact bmap_append h hi he hle

end Yaos.Fs
