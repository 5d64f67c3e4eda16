import Mathlib.Data.List.GetD
import Yaos.Fs.Extents

/-!
# Reading and writing bytes

In a consistent image (`Blocks`) an inode has the blocks that its size
requires. Reading returns a part of the bytes of the file; the loop of `iwrite`
writes all bytes, or the free blocks are not enough for the file as it would
be.
-/

namespace Yaos.Fs

open Yaos.Lib Prog

def Img.bytes (img : Img) (i : Nat) : List UInt8 := (List.range (img.inode i).size).map (img.byte i)

/-- Blocks and files agree: an inode has the blocks that its size requires. -/
structure Blocks (img : Img) : Prop where
  owned : Owned img
  extent : ∀ i, img.sb.Inum i → Extent img i (divceil (img.inode i).size bsize)
  empty : ∀ i, img.sb.Inum i → (img.inode i).type = .free ∨ (img.inode i).type = .dev →
    (img.inode i).size = 0

variable {s t u : Img} {i j k n m b off : Nat} {buf : List UInt8}

/-! ## Numbers -/

theorem divceil_eq (x : Nat) : divceil x bsize = (x + (bsize - 1)) / bsize := by
  unfold divceil bsize
  split <;> omega

theorem div_lt_divceil {o x : Nat} (h : o < x) : o / bsize < divceil x bsize := by
  rw [divceil_eq]
  unfold bsize
  omega

theorem le_divceil_mul (x : Nat) : x ≤ divceil x bsize * bsize := by
  rw [divceil_eq]
  unfold bsize
  omega

theorem divceil_le_iff {x : Nat} : divceil x bsize ≤ n ↔ x ≤ n * bsize := by
  rw [divceil_eq]
  unfold bsize
  omega

theorem divceil_mono {x y : Nat} (h : x ≤ y) : divceil x bsize ≤ divceil y bsize := by
  rw [divceil_le_iff]
  exact Nat.le_trans h (le_divceil_mul y)

theorem divceil_max (x y : Nat) : max (divceil x bsize) (divceil y bsize) = divceil (max x y) bsize := by
  rcases Nat.le_total x y with h | h
  · rw [Nat.max_eq_right h, Nat.max_eq_right (divceil_mono h)]
  · rw [Nat.max_eq_left h, Nat.max_eq_left (divceil_mono h)]

@[simp] theorem length_bytes : (s.bytes i).length = (s.inode i).size := by
  rw [Img.bytes, List.length_map, List.length_range]

theorem Blocks.size_le (h : Blocks s) (hi : s.sb.Inum i) : (s.inode i).size ≤ maxFileSize := by
  have := (h.extent i hi).le
  rwa [divceil_le_iff] at this

/-! ## Reading -/

theorem byte_add {x : Nat} (hx : off % bsize + x < bsize) :
    s.byte i (off + x) = s.data (s.block i (off / bsize)) (off % bsize + x) := by
  have hdiv : (off + x) / bsize = off / bsize := by
    unfold bsize at hx ⊢
    omega
  have hmod : (off + x) % bsize = off % bsize + x := by
    unfold bsize at hx ⊢
    omega
  rw [Img.byte, hdiv, hmod]

/-- The loop of `iread` appends the bytes from `off` on. -/
theorem ireadLoop_eq (h : Owned s) (hi : s.sb.Inum i)
    (he : Extent s i (divceil (s.inode i).size bsize)) : ∀ (fuel off : Nat) (buf : List UInt8),
    n - buf.length < fuel → off + (n - buf.length) ≤ (s.inode i).size →
    ireadLoop i n fuel off buf s =
      (.ok (buf ++ (List.range (n - buf.length)).map fun x => s.byte i (off + x)), s) := by
  intro fuel
  induction fuel with
  | zero =>
    intro off buf hfuel
    omega
  | succ fuel ih =>
    intro off buf hfuel hle
    rw [ireadLoop]
    split
    next hlt =>
      have hj := div_lt_divceil (show off < (s.inode i).size by omega)
      rw [bind_of_eq (bmap_of_lt h hi he hj), gets_bind]
      simp only [id, h.block_valid hi he hj, if_true]
      -- one round reads `m` bytes of a block
      set m := min (n - buf.length) (bsize - off % bsize) with hm
      have hmod : off % bsize < bsize := Nat.mod_lt _ (by decide)
      have hbytes : ((List.range m).map fun x => s.data (s.block i (off / bsize)) (off % bsize + x)) =
          (List.range m).map fun x => s.byte i (off + x) := by
        apply List.map_congr_left
        intro x hx
        rw [List.mem_range] at hx
        exact (byte_add (by omega)).symm
      rw [hbytes, ih _ _ (by simp; omega) (by simp; omega)]
      have hsplit : n - buf.length = m + (n - (buf.length + m)) := by omega
      rw [hsplit, List.range_add]
      simp [Function.comp_def, Nat.add_assoc]
    next hge =>
      have : n - buf.length = 0 := by omega
      simp [this]

theorem map_byte_range (hle : off + n ≤ (s.inode i).size) :
    ((List.range n).map fun x => s.byte i (off + x)) = ((s.bytes i).drop off).take n := by
  apply List.ext_getElem
  · simp
    omega
  · intro x hx hx'
    simp [Img.bytes]

/-- **What `iread` does** to a file that has the blocks that its size requires. -/
theorem Owned.iread_eq (h : Owned s) (hi : s.sb.Inum i)
    (he : Extent s i (divceil (s.inode i).size bsize)) (ht : (s.inode i).type ≠ .dev)
    (hoff : off ≤ (s.inode i).size) (hn : off + n < 2 ^ 32) :
    iread i n off s = (.ok (some (((s.bytes i).drop off).take n)), s) := by
  rw [iread, gets_bind, if_neg ht, if_neg (by omega)]
  split
  next hlt =>
    rw [bind_of_eq (ireadLoop_eq h hi he _ off [] (by simp) (by simp; omega)), pure_apply]
    simp only [List.length_nil, Nat.sub_zero, List.nil_append]
    rw [map_byte_range (by omega), List.take_of_length_le (by simp), List.take_of_length_le (by simp; omega)]
  next hge =>
    rw [bind_of_eq (ireadLoop_eq h hi he _ off [] (by simp) (by simp; omega)), pure_apply]
    simp only [List.length_nil, Nat.sub_zero, List.nil_append]
    rw [map_byte_range (by omega)]

theorem iread_eq (h : Blocks s) (hi : s.sb.Inum i) (ht : (s.inode i).type ≠ .dev)
    (hoff : off ≤ (s.inode i).size) (hn : off + n < 2 ^ 32) :
    iread i n off s = (.ok (some (((s.bytes i).drop off).take n)), s) :=
  h.owned.iread_eq hi (h.extent i hi) ht hoff hn

theorem Owned.iread_state (h : Owned s) (hi : s.sb.Inum i)
    (he : Extent s i (divceil (s.inode i).size bsize)) (n off : Nat) : (iread i n off s).2 = s := by
  by_cases hrefused : (s.inode i).type = .dev ∨ (s.inode i).size < off ∨ 2 ^ 32 ≤ off + n
  · rw [iread, gets_bind]
    split
    next => rfl
    next hdev =>
      rw [if_pos (hrefused.resolve_left hdev)]
      rfl
  · rw [not_or, not_or] at hrefused
    rw [h.iread_eq hi he hrefused.1 (by omega) (by omega)]

/-! ## Writing -/

theorem Owned.slot_setData (h : Owned s) {bytes : Nat → UInt8} (hik : s.sb.IsSlot i k)
    (hk : k ≠ ndirect) (h0 : s.slot i k ≠ 0) {i' k' : Nat} (hik' : s.sb.IsSlot i' k') :
    (s.setData (s.slot i k) bytes).slot i' k' = s.slot i' k' := by
  by_cases hk' : k' ≤ ndirect
  · rw [slot_of_le hk', slot_of_le hk']
    rfl
  · refine slot_congr (Nat.lt_of_not_le hk') rfl fun _ => Function.update_of_ne ?_ _ _
    intro heq
    exact hk (h.inj i k i' ndirect hik (isSlot_ndirect hik'.1) h0 heq).2.symm

/-- `iwriteLoop` has written `buf` at `off` to a file of `n` blocks. -/
structure Wrote (s t : Img) (i n off : Nat) (buf : List UInt8) : Prop where
  frame : Frame s t i
  extent : Extent t i (max n (divceil (off + buf.length) bsize))
  free : t.free + slots (max n (divceil (off + buf.length) bsize)) = s.free + slots n
  slots : SlotsKept s t
  kept : ∀ o, o < n * bsize → o < off ∨ off + buf.length ≤ o → t.byte i o = s.byte i o
  new : ∀ o, o < buf.length → t.byte i (off + o) = buf.getD o 0

theorem Owned.write (h : Owned s) (hi : s.sb.Inum i) (he : Extent s i n) (hj : off / bsize < n)
    (hle : off % bsize + buf.length ≤ bsize) :
    Wrote s (s.write (s.block i (off / bsize)) (off % bsize) buf) i n off buf := by
  have hlt : off / bsize < ndirect + nindirect := Nat.lt_of_lt_of_le hj he.le
  have h0 := he.block_ne_zero hj
  have hslot : ∀ {i' k'}, s.sb.IsSlot i' k' →
      (s.write (s.block i (off / bsize)) (off % bsize) buf).slot i' k' = s.slot i' k' :=
    fun hik => h.slot_setData ⟨hi, slotOf_lt hlt⟩ slotOf_ne h0 hik
  have hmax : max n (divceil (off + buf.length) bsize) = n := by
    apply Nat.max_eq_left
    rw [divceil_le_iff]
    unfold bsize at hj hle ⊢
    omega
  have hblock : ∀ {j}, j < ndirect + nindirect →
      (s.write (s.block i (off / bsize)) (off % bsize) buf).block i j = s.block i j :=
    fun hj => hslot ⟨hi, slotOf_lt hj⟩
  have hself : (s.write (s.block i (off / bsize)) (off % bsize) buf).data (s.block i (off / bsize)) =
      fun x => if off % bsize ≤ x ∧ x < off % bsize + buf.length then buf.getD (x - off % bsize) 0
        else s.data (s.block i (off / bsize)) x := Function.update_self ..
  have hother : ∀ {c}, c ≠ s.block i (off / bsize) →
      (s.write (s.block i (off / bsize)) (off % bsize) buf).data c = s.data c :=
    fun hc => Function.update_of_ne hc _ _
  constructor
  · refine ⟨rfl, h.congr rfl rfl fun _ _ hik => hslot hik, fun _ _ => rfl, fun _ => rfl,
      fun _ _ _ hik => hslot hik, ?_⟩
    intro i' k hi' hik _ _
    apply hother
    intro heq
    exact hi' (h.inj i _ i' k ⟨hi, slotOf_lt hlt⟩ hik h0 heq).1
  · rw [hmax]
    refine ⟨he.le, fun k hk => ?_⟩
    rw [hslot ⟨hi, hk⟩, he.iff k hk]
  · rw [hmax]
    rfl
  · exact fun _ _ hik _ => hslot hik
  · intro o ho hout
    have hj' := div_bsize_lt ho
    rw [Img.byte, Img.byte, hblock (Nat.lt_of_lt_of_le hj' he.le)]
    by_cases hjj : o / bsize = off / bsize
    · rw [hjj, hself]
      dsimp only
      rw [if_neg]
      unfold bsize at hjj hout ⊢
      omega
    · rw [hother]
      intro heq
      exact hjj (slotOf_inj (h.inj i _ i _ ⟨hi, slotOf_lt hlt⟩
        ⟨hi, slotOf_lt (Nat.lt_of_lt_of_le hj' he.le)⟩ h0 heq).2)
  · intro o ho
    rw [byte_add (by omega), hblock hlt, hself]
    dsimp only
    rw [if_pos (by omega), Nat.add_sub_cancel_left]

theorem Mapped.wrote (h : Mapped s t i n (off / bsize) b)
    (h' : Wrote t u i (max n (off / bsize + 1)) off buf) (hbuf : 0 < buf.length) :
    Wrote s u i n off buf := by
  have hlt : off / bsize < divceil (off + buf.length) bsize := div_lt_divceil (by omega)
  have hmax : max (max n (off / bsize + 1)) (divceil (off + buf.length) bsize) =
      max n (divceil (off + buf.length) bsize) := by omega
  have hextent := h'.extent
  have hfree := h'.free
  rw [hmax] at hextent hfree
  refine ⟨h.frame.trans h'.frame, hextent, hfree.trans h.free, h.slots.trans h.frame.sb h'.slots,
    ?_, h'.new⟩
  intro o ho hout
  rw [h'.kept o _ hout, h.byte o ho]
  exact Nat.lt_of_lt_of_le ho (Nat.mul_le_mul_right _ (Nat.le_max_left ..))

theorem Wrote.append {buf' : List UInt8} (h : Wrote s t i n off buf)
    (h' : Wrote t u i (max n (divceil (off + buf.length) bsize)) (off + buf.length) buf') :
    Wrote s u i n off (buf ++ buf') := by
  have hle : divceil (off + buf.length) bsize ≤ divceil (off + buf.length + buf'.length) bsize :=
    divceil_mono (by omega)
  have hmax : max (max n (divceil (off + buf.length) bsize))
      (divceil (off + buf.length + buf'.length) bsize) =
      max n (divceil (off + (buf ++ buf').length) bsize) := by
    rw [List.length_append, ← Nat.add_assoc]
    omega
  have hextent := h'.extent
  have hfree := h'.free
  rw [hmax] at hextent hfree
  refine ⟨h.frame.trans h'.frame, hextent, hfree.trans h.free, h.slots.trans h.frame.sb h'.slots,
    ?_, ?_⟩
  · intro o ho hout
    rw [List.length_append] at hout
    rw [h'.kept o _ (by omega), h.kept o ho (by omega)]
    exact Nat.lt_of_lt_of_le ho (Nat.mul_le_mul_right _ (Nat.le_max_left ..))
  · intro o ho
    rw [List.length_append] at ho
    by_cases hlt : o < buf.length
    · have hin : off + o < max n (divceil (off + buf.length) bsize) * bsize :=
        calc off + o < off + buf.length := by omega
          _ ≤ divceil (off + buf.length) bsize * bsize := le_divceil_mul _
          _ ≤ _ := Nat.mul_le_mul_right _ (Nat.le_max_right ..)
      rw [h'.kept _ hin (by omega), h.new o hlt, List.getD_append _ _ _ _ hlt]
    · have := h'.new (o - buf.length) (by omega)
      rw [show off + buf.length + (o - buf.length) = off + o by omega] at this
      rw [this, List.getD_append_right _ _ _ _ (by omega)]

theorem Wrote.nil (h : Owned s) (he : Extent s i n) (hoff : off ≤ n * bsize) : Wrote s s i n off [] := by
  have hmax : max n (divceil (off + ([] : List UInt8).length) bsize) = n :=
    Nat.max_eq_left (divceil_le_iff.mpr hoff)
  refine ⟨.refl h, hmax.symm ▸ he, hmax.symm ▸ rfl, fun _ _ _ _ => rfl, fun _ _ _ => rfl, ?_⟩
  intro o ho
  cases ho

/-- **The loop of `iwrite`** writes all bytes, or the image is full. -/
theorem iwriteLoop_spec (i : Nat) : ∀ (fuel n t₀ off : Nat) (buf : List UInt8) (s : Img),
    Owned s → s.sb.Inum i → Extent s i n → off ≤ n * bsize → off + buf.length ≤ maxFileSize →
    buf.length < fuel →
    Ends (iwriteLoop i fuel buf t₀ off) s
      (fun r t => r = (t₀ + buf.length, off + buf.length) ∧ Wrote s t i n off buf)
      (fun _ _ => s.free + slots n < slots (max n (divceil (off + buf.length) bsize))) := by
  intro fuel
  induction fuel with
  | zero =>
    intro n t₀ off buf s _ _ _ _ _ hfuel
    omega
  | succ fuel ih =>
    intro n t₀ off buf s h hi he hoff hmaxsize hfuel
    rw [iwriteLoop]
    by_cases hbuf : buf = []
    · subst hbuf
      rw [if_neg (by simp)]
      exact ⟨rfl, .nil h he hoff⟩
    · have hlen : 0 < buf.length := List.length_pos_iff.mpr hbuf
      have hj : off / bsize ≤ n := by
        unfold bsize at hoff ⊢
        omega
      have hj' : off / bsize < ndirect + nindirect := by
        unfold maxFileSize at hmaxsize
        exact div_bsize_lt (by omega)
      have hceil : off / bsize + 1 ≤ divceil (off + buf.length) bsize := div_lt_divceil (by omega)
      rw [if_pos hbuf]
      refine ((bmap_spec h hi he hj hj').mono (fun _ _ hmap => hmap) fun e t hfree => ?_).bind
        fun b t hmap => ?_
      · exact Nat.lt_of_lt_of_le hfree.1 (slots_mono (by omega))
      · -- the block is written and the loop goes on with the rest
        have hit : t.sb.Inum i := hmap.frame.sb ▸ hi
        have hjt : off / bsize < max n (off / bsize + 1) := by omega
        have hmod : off % bsize < bsize := Nat.mod_lt _ (by decide)
        rw [hmap.block, ends_gets_bind, if_pos (hmap.frame.owned.block_valid hit hmap.extent hjt),
          ends_modify_bind]
        set m := min buf.length (bsize - off % bsize) with hm
        have htake : (buf.take m).length = m := by simp [hm]
        have hdrop : (buf.drop m).length = buf.length - m := List.length_drop
        have hwrote : Wrote s (t.write (t.block i (off / bsize)) (off % bsize) (buf.take m)) i n off
            (buf.take m) :=
          hmap.wrote (hmap.frame.owned.write hit hmap.extent hjt (by omega)) (by omega)
        have hin : off + m ≤ max n (divceil (off + (buf.take m).length) bsize) * bsize :=
          calc off + m ≤ divceil (off + (buf.take m).length) bsize * bsize :=
                htake.symm ▸ le_divceil_mul _
            _ ≤ _ := Nat.mul_le_mul_right _ (Nat.le_max_right ..)
        have hmono : divceil (off + m) bsize ≤ divceil (off + buf.length) bsize :=
          divceil_mono (by omega)
        refine (ih _ (t₀ + m) (off + m) (buf.drop m) _ hwrote.frame.owned (hwrote.frame.sb ▸ hi)
          hwrote.extent hin (by omega) (by omega)).mono ?_ ?_
        · intro r u hr
          refine ⟨?_, ?_⟩
          · rw [hr.1, hdrop]
            ext <;> simp <;> omega
          · have hall := hwrote.append (by rw [htake]; rw [htake] at hr; exact hr.2)
            rwa [List.take_append_drop] at hall
        · intro e u hfree
          have := hwrote.free
          rw [htake] at this hfree
          rw [hdrop, show off + m + (buf.length - m) = off + buf.length by omega,
            show max (max n (divceil (off + m) bsize)) (divceil (off + buf.length) bsize) =
              max n (divceil (off + buf.length) bsize) by omega] at hfree
          omega

end Yaos.Fs
