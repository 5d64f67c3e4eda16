import Yaos.Fs.Files

/-!
# `itruncate`

A file that gets shorter gives the blocks behind its new end back, the indirect
block with the last that it names; one that gets longer takes the blocks it
lacks. The slots that it needs before and after keep their blocks (`Resized`).
-/

namespace Yaos.Fs

open Yaos.Lib Prog

variable {s t u v : Img} {i j k n m b off size : Nat} {buf : List UInt8} {f : File}

/-- The file `i` had `n` blocks and has `m` now. -/
structure Resized (s t : Img) (i n m : Nat) : Prop where
  frame : Frame s t i
  extent : Extent t i m
  kept : ∀ k, k < numSlots → Needs n k → Needs m k → t.slot i k = s.slot i k
  free : t.free + slots m = s.free + slots n

/-! ## Giving blocks back -/

/-- Slots of the file `i` have been cleared and their blocks given back. -/
structure Freed (s t : Img) (i : Nat) (l : List Nat) : Prop where
  frame : Frame s t i
  slot : ∀ k, k < numSlots → t.slot i k = if k ∈ l then 0 else s.slot i k
  data : ∀ k, k < numSlots → k ≠ ndirect → k ∉ l → s.slot i k ≠ 0 →
    t.data (s.slot i k) = s.data (s.slot i k)
  free : t.free = s.free + l.length

theorem Freed.append {l l' : List Nat} (h : Freed s t i l) (h' : Freed t u i l') :
    Freed s u i (l ++ l') := by
  refine ⟨h.frame.trans h'.frame, fun k hk => ?_, fun k hk hne hkl h0 => ?_, ?_⟩
  · rw [h'.slot k hk, h.slot k hk]
    simp only [List.mem_append]
    split_ifs <;> tauto
  · rw [List.mem_append, not_or] at hkl
    have hslot : t.slot i k = s.slot i k := by rw [h.slot k hk, if_neg hkl.1]
    rw [← h.data k hk hne hkl.1 h0, ← hslot]
    exact h'.data k hk hne hkl.2 (hslot ▸ h0)
  · rw [h'.free, h.free, List.length_append, Nat.add_assoc]

theorem Freed.slot_of_ne {c : Nat} (h : Freed s t i [c]) (hk : k < numSlots) (hc : k ≠ c) :
    t.slot i k = s.slot i k := by
  rw [h.slot k hk, if_neg (mt List.mem_singleton.mp hc)]

theorem Owned.freed (h : Owned s) (hik : s.sb.IsSlot i k) (h0 : s.slot i k ≠ 0)
    (hsb : t.sb = s.sb) (hbit : t.bit = Function.update s.bit (s.slot i k) false)
    (hattrs : ∀ i', (t.inode i').attrs = (s.inode i').attrs)
    (hslot : ∀ i' k', s.sb.IsSlot i' k' →
      t.slot i' k' = if i' = i ∧ k' = k then 0 else s.slot i' k')
    (hdata : ∀ i' k', s.sb.IsSlot i' k' → k' ≠ ndirect → s.slot i' k' ≠ 0 →
      t.data (s.slot i' k') = s.data (s.slot i' k')) : Freed s t i [k] := by
  have hv := h.valid i k hik h0
  refine ⟨⟨hsb, h.detach hik h0 hsb hbit hslot, ?_, hattrs, ?_, fun i' k' _ => hdata i' k'⟩, ?_,
    fun k' hk' hne _ => hdata i k' ⟨hik.1, hk'⟩ hne, ?_⟩
  · intro c hc
    rw [hbit, Function.update_of_ne (ne_of_valid hv hc)]
  · intro i' k' hne hik'
    rw [hslot i' k' hik', if_neg fun heq => hne heq.1]
  · intro k' hk'
    rw [hslot i k' ⟨hik.1, hk'⟩]
    simp
  · rw [free_clear hsb hv (h.bit_of_slot hik h0) hbit]
    rfl

theorem bfree_of_valid (hv : s.sb.validDataBlock b = true) :
    bfree b s = (.ok (), s.setBit b false) := by
  rw [bfree, gets_bind, if_pos hv]
  rfl

/-- An entry of the inode is cleared. What the indirect block names must have
been given back before the indirect block. -/
theorem Owned.freed_addr (h : Owned s) (hi : s.sb.Inum i) (hk : k ≤ ndirect)
    (h0 : s.slot i k ≠ 0) (hind : k = ndirect → ∀ k', ndirect < k' → k' < numSlots → s.slot i k' = 0) :
    Freed s ((s.setBit (s.slot i k) false).setAddr i k 0) i [k] := by
  refine h.freed ⟨hi, Nat.lt_of_le_of_lt hk (by decide)⟩ h0 rfl rfl (fun i' => attrs_setAddr i') ?_
    fun _ _ _ _ _ => rfl
  intro i' k' hik
  by_cases hk' : k' ≤ ndirect
  · exact slot_setAddr_of_le hk'
  · have hlt := Nat.lt_of_not_le hk'
    have hne : ¬ (i' = i ∧ k' = k) := fun heq => hk' (heq.2 ▸ hk)
    rw [if_neg hne]
    have hsame : ((s.setBit (s.slot i k) false).setAddr i k 0).slot i' ndirect =
        if i' = i ∧ ndirect = k then 0 else s.slot i' ndirect := slot_setAddr_of_le (Nat.le_refl _)
    by_cases hcase : i' = i ∧ ndirect = k
    · rw [if_pos hcase] at hsame
      obtain ⟨rfl, rfl⟩ := hcase
      rw [slot_eq_zero hlt hsame, hind rfl k' hlt hik.2]
    · rw [if_neg hcase] at hsame
      exact slot_congr hlt hsame fun _ => rfl

theorem Owned.freed_word (h : Owned s) (hi : s.sb.Inum i) (hk : ndirect < k) (hks : k < numSlots)
    (hind : s.slot i ndirect ≠ 0) (h0 : s.slot i k ≠ 0) :
    Freed s ((s.setBit (s.slot i k) false).setWord (s.slot i ndirect) (k - (ndirect + 1)) 0) i [k] := by
  refine h.freed ⟨hi, hks⟩ h0 rfl rfl (fun _ => rfl) ?_ ?_
  · intro i' k' hik
    refine slot_setWord ?_ hind hk (by decide) i' k' hik
    intro j hj heq
    exact (h.inj i ndirect j ndirect (isSlot_ndirect hi) (isSlot_ndirect hj) hind heq).1
  · intro i' k' hik hne _
    apply Function.update_of_ne
    intro heq
    exact hne (h.inj i ndirect i' k' (isSlot_ndirect hi) hik hind heq).2

theorem freeDirect_spec (i : Nat) : ∀ (l : List Nat) (s : Img), Owned s → s.sb.Inum i →
    l.Nodup → (∀ k ∈ l, k < ndirect ∧ s.slot i k ≠ 0) →
    ∃ t, freeDirect i l s = (.ok (), t) ∧ Freed s t i l := by
  intro l
  induction l with
  | nil =>
    intro s h _ _ _
    exact ⟨s, rfl, .refl h, by simp, fun _ _ _ _ _ => rfl, rfl⟩
  | cons k l ih =>
    intro s h hi hl hall
    obtain ⟨hkl, hl⟩ := List.nodup_cons.mp hl
    obtain ⟨hk, h0⟩ := hall k List.mem_cons_self
    have hfreed := h.freed_addr hi (Nat.le_of_lt hk) h0 (fun heq => absurd heq (Nat.ne_of_lt hk))
    obtain ⟨t, heq, hrest⟩ := ih _ hfreed.frame.owned (hfreed.frame.sb ▸ hi) hl fun k' hk' => by
      obtain ⟨hlt, hne⟩ := hall k' (List.mem_cons_of_mem _ hk')
      refine ⟨hlt, ?_⟩
      rwa [hfreed.slot_of_ne (Nat.lt_trans hlt (by decide)) (ne_of_mem_of_not_mem hk' hkl)]
    refine ⟨t, ?_, hfreed.append hrest⟩
    rw [freeDirect, gets_bind, ← slot_of_le (Nat.le_of_lt hk),
      bind_of_eq (bfree_of_valid (h.valid i k ⟨hi, Nat.lt_trans hk (by decide)⟩ h0)), modify_bind]
    exact heq

theorem freeIndirect_spec (i : Nat) : ∀ (l : List Nat) (s : Img), Owned s → s.sb.Inum i →
    s.slot i ndirect ≠ 0 → l.Nodup → (∀ j ∈ l, j < nindirect ∧ s.slot i (j + (ndirect + 1)) ≠ 0) →
    ∃ t, freeIndirect (s.slot i ndirect) l s = (.ok (), t) ∧
      Freed s t i (l.map (· + (ndirect + 1))) := by
  intro l
  induction l with
  | nil =>
    intro s h _ _ _ _
    exact ⟨s, rfl, .refl h, by simp, fun _ _ _ _ _ => rfl, rfl⟩
  | cons j l ih =>
    intro s h hi hind hl hall
    obtain ⟨hjl, hl⟩ := List.nodup_cons.mp hl
    obtain ⟨hj, h0⟩ := hall j List.mem_cons_self
    have hk : ndirect < j + (ndirect + 1) := by omega
    have hslots : ∀ {j}, j < nindirect → j + (ndirect + 1) < numSlots := by
      unfold numSlots
      omega
    have hfreed := h.freed_word hi hk (hslots hj) hind h0
    rw [Nat.add_sub_cancel] at hfreed
    have hsame := hfreed.slot_of_ne (show ndirect < numSlots by decide) (Nat.ne_of_lt hk)
    obtain ⟨t, heq, hrest⟩ := ih _ hfreed.frame.owned (hfreed.frame.sb ▸ hi) (by rwa [hsame]) hl
      fun j' hj' => by
        obtain ⟨hlt, hne⟩ := hall j' (List.mem_cons_of_mem _ hj')
        have hjj := ne_of_mem_of_not_mem hj' hjl
        refine ⟨hlt, ?_⟩
        rwa [hfreed.slot_of_ne (hslots hlt) (by omega)]
    refine ⟨t, ?_, hfreed.append hrest⟩
    have hword : word (s.data (s.slot i ndirect)) j = s.slot i (j + (ndirect + 1)) := by
      rw [slot_of_gt hk hind, Nat.add_sub_cancel]
    rw [freeIndirect, gets_bind, hword,
      bind_of_eq (bfree_of_valid (h.valid i _ ⟨hi, hslots hj⟩ h0)), modify_bind]
    rw [hsame] at heq
    exact heq

theorem Needs.mono (h : Needs m k) (hle : m ≤ n) : Needs n k := by
  unfold Needs at h ⊢
  split_ifs at h ⊢ <;> omega

theorem Freed.resized {l : List Nat} (h : Freed s t i l) (he : Extent s i n) (hm : m ≤ n)
    (hl : ∀ k, k < numSlots → (k ∈ l ↔ Needs n k ∧ ¬ Needs m k)) (hlen : l.length + slots m = slots n) :
    Resized s t i n m := by
  have hkept : ∀ k, k < numSlots → Needs m k → t.slot i k = s.slot i k := by
    intro k hk hneeds
    rw [h.slot k hk, if_neg fun hkl => ((hl k hk).mp hkl).2 hneeds]
  refine ⟨h.frame, ⟨Nat.le_trans hm he.le, fun k hk => ?_⟩, fun k hk _ => hkept k hk, ?_⟩
  · by_cases hneeds : Needs m k
    · rw [hkept k hk hneeds, he.iff k hk]
      exact iff_of_true (hneeds.mono hm) hneeds
    · rw [h.slot k hk]
      refine iff_of_false ?_ hneeds
      split
      next => exact not_not_intro rfl
      next hkl => exact not_not_intro (he.slot_eq_zero hk fun hn => hkl ((hl k hk).mpr ⟨hn, hneeds⟩))
  · rw [h.free]
    omega

theorem Freed.byte {l : List Nat} (h : Freed s t i l) (he : Extent s i n) (hm : m ≤ n)
    (hl : ∀ k, k < numSlots → (k ∈ l ↔ Needs n k ∧ ¬ Needs m k)) {o : Nat} (ho : o < m * bsize) :
    t.byte i o = s.byte i o := by
  have hj : o / bsize < m := div_bsize_lt ho
  have hlt : slotOf (o / bsize) < numSlots :=
    slotOf_lt (Nat.lt_of_lt_of_le hj (Nat.le_trans hm he.le))
  have hkl : slotOf (o / bsize) ∉ l := fun hkl => ((hl _ hlt).mp hkl).2 (needs_slotOf.mpr hj)
  rw [Img.byte, Img.byte, Img.block, h.slot _ hlt, if_neg hkl,
    h.data _ hlt slotOf_ne hkl (he.block_ne_zero (Nat.lt_of_lt_of_le hj hm))]
  rfl

/-! ## A shorter file -/

/-- The slots that `shrinkIndirect` clears. -/
def indirectSlots (n m : Nat) : List Nat :=
  (List.range' (m - ndirect) (n - ndirect - (m - ndirect))).map (· + (ndirect + 1)) ++
    if m ≤ ndirect then [ndirect] else []

theorem mem_indirectSlots (hn : ndirect < n) :
    k ∈ indirectSlots n m ↔ ndirect ≤ k ∧ Needs n k ∧ ¬ Needs m k := by
  have hlast : k ∈ (if m ≤ ndirect then [ndirect] else []) ↔ m ≤ ndirect ∧ k = ndirect := by
    split <;> simp [*]
  have hmap : k ∈ (List.range' (m - ndirect) (n - ndirect - (m - ndirect))).map (· + (ndirect + 1)) ↔
      ndirect < k ∧ m < k ∧ k ≤ n := by
    rw [List.mem_map]
    constructor
    · rintro ⟨j, hj, rfl⟩
      rw [List.mem_range'_1] at hj
      omega
    · intro hk
      exact ⟨k - (ndirect + 1), by rw [List.mem_range'_1]; omega, by omega⟩
  rw [indirectSlots, List.mem_append, hmap, hlast]
  unfold Needs
  split_ifs <;> omega

theorem shrinkIndirect_spec (h : Owned s) (hi : s.sb.Inum i) (hn : ndirect < n)
    (hle : n ≤ ndirect + nindirect)
    (hne : ∀ k, ndirect ≤ k → k ≤ n → s.slot i k ≠ 0)
    (hzero : ∀ k, n < k → k < numSlots → s.slot i k = 0) (m : Nat) :
    ∃ t, shrinkIndirect i n m s = (.ok (), t) ∧ Freed s t i (indirectSlots n m) := by
  have hind : s.slot i ndirect ≠ 0 := hne ndirect (Nat.le_refl _) (Nat.le_of_lt hn)
  have haddr : (s.inode i).addrs ndirect = s.slot i ndirect := (slot_of_le (Nat.le_refl _)).symm
  have hv := h.valid i _ (isSlot_ndirect hi) hind
  obtain ⟨t, heq, hfreed⟩ := freeIndirect_spec i
    (List.range' (m - ndirect) (n - ndirect - (m - ndirect))) s h hi hind
    List.nodup_range' fun j hj => by
      rw [List.mem_range'_1] at hj
      exact ⟨by omega, hne _ (by omega) (by omega)⟩
  rw [shrinkIndirect, if_pos hn, gets_bind, haddr, if_neg hind, bind_of_eq (deref_of_valid hv),
    bind_of_eq heq, indirectSlots]
  by_cases hm : m ≤ ndirect
  · -- nothing is left behind the indirect block, which goes too
    rw [if_pos (by omega), if_pos hm]
    have hsame : t.slot i ndirect = s.slot i ndirect := by
      rw [hfreed.slot ndirect (by decide), if_neg]
      simp
      omega
    have hlast := hfreed.frame.owned.freed_addr (hfreed.frame.sb ▸ hi) (Nat.le_refl _)
      (hsame ▸ hind) fun _ k hk hks => by
        rw [hfreed.slot k hks]
        split
        · rfl
        next hkl =>
          apply hzero k _ hks
          by_contra hkn
          apply hkl
          rw [List.mem_map]
          exact ⟨k - (ndirect + 1), by rw [List.mem_range'_1]; omega, by omega⟩
    refine ⟨_, ?_, hfreed.append hlast⟩
    rw [bind_of_eq (bfree_of_valid (hfreed.frame.sb ▸ hv)), hsame]
    rfl
  · rw [if_neg (by omega), if_neg hm, List.append_nil]
    exact ⟨t, rfl, hfreed⟩

/-- The slots that `shrink` clears. -/
def shrunkSlots (n m : Nat) : List Nat :=
  List.range' (min m ndirect) (min n ndirect - min m ndirect) ++
    if ndirect < n then indirectSlots n m else []

theorem mem_shrunkSlots : k ∈ shrunkSlots n m ↔ Needs n k ∧ ¬ Needs m k := by
  rw [shrunkSlots, List.mem_append, List.mem_range'_1]
  split
  next hn =>
    rw [mem_indirectSlots hn]
    unfold Needs
    split_ifs <;> omega
  next hn =>
    unfold Needs
    split_ifs <;> simp <;> omega

theorem length_shrunkSlots (hm : m ≤ n) : (shrunkSlots n m).length + slots m = slots n := by
  unfold shrunkSlots indirectSlots slots
  split_ifs <;> simp <;> omega

theorem shrink_spec (h : Owned s) (hi : s.sb.Inum i) (he : Extent s i n) (m : Nat) :
    ∃ t, shrink i n m s = (.ok (), t) ∧ Freed s t i (shrunkSlots n m) := by
  have hle := he.le
  obtain ⟨t, heq, hfreed⟩ := freeDirect_spec i
    (List.range' (min m ndirect) (min n ndirect - min m ndirect)) s h hi
    List.nodup_range' fun k hk => by
      rw [List.mem_range'_1] at hk
      have hlt : k < ndirect := by omega
      refine ⟨hlt, (he.iff k (Nat.lt_trans hlt (by decide))).mpr ?_⟩
      rw [Needs, if_pos hlt]
      omega
  rw [shrink, bind_of_eq heq, shrunkSlots]
  by_cases hn : ndirect < n
  · have hbehind : ∀ k, ndirect ≤ k → k < numSlots → t.slot i k = s.slot i k := by
      intro k hk hks
      rw [hfreed.slot k hks, if_neg]
      rw [List.mem_range'_1]
      omega
    obtain ⟨u, heq', hfreed'⟩ := shrinkIndirect_spec hfreed.frame.owned (hfreed.frame.sb ▸ hi) hn hle
      (fun k hk hkn => by
        have hks : k < numSlots := by
          unfold numSlots
          omega
        rw [hbehind k hk hks]
        refine (he.iff k hks).mpr ?_
        unfold Needs
        split_ifs <;> omega)
      (fun k hk hks => by
        rw [hbehind k (by omega) hks]
        refine he.slot_eq_zero hks ?_
        unfold Needs
        split_ifs <;> omega) m
    rw [if_pos hn]
    exact ⟨u, heq', hfreed.append hfreed'⟩
  · rw [shrinkIndirect, if_neg hn, if_neg hn, List.append_nil]
    exact ⟨t, rfl, hfreed⟩

/-! ## A longer file -/

/-- The loop that fills with zeros is the loop of `iwrite`, as long as that one
does not end early. -/
theorem growLoop_of_iwriteLoop {P : Img → Prop} {E : Stop → Img → Prop} :
    ∀ (fuel left t₀ off : Nat) (s : Img),
    Ends (iwriteLoop i fuel (List.replicate left 0) t₀ off) s
      (fun r t => r.1 = t₀ + left ∧ P t) E →
    Ends (growLoop i fuel left off) s (fun _ t => P t) E := by
  intro fuel
  induction fuel with
  | zero =>
    intro left t₀ off s h
    exact h
  | succ fuel ih =>
    intro left t₀ off s h
    rw [iwriteLoop] at h
    rw [growLoop]
    by_cases hleft : 0 < left
    · have hbuf : List.replicate left (0 : UInt8) ≠ [] := by
        simp
        omega
      rw [if_pos hbuf, ends_bind] at h
      rw [if_pos hleft, ends_bind]
      refine h.mono (fun b t hrest => ?_) fun _ _ he => he
      rw [ends_gets_bind] at hrest
      by_cases hv : t.sb.validDataBlock b = true
      · rw [if_pos hv, ends_modify_bind, List.length_replicate, List.take_replicate,
          List.drop_replicate] at hrest
        refine Ends.bind_eq (deref_of_valid hv) ?_
        rw [ends_modify_bind]
        rw [Nat.min_eq_left (Nat.min_le_left _ _)] at hrest
        refine ih _ _ _ _ (hrest.mono (fun r u hr => ⟨?_, hr.2⟩) fun _ _ he => he)
        rw [hr.1]
        omega
      · -- the loop of `iwrite` would have ended here
        rw [if_neg hv, ends_pure] at hrest
        omega
    · rw [if_neg (by simp; omega)] at h
      rw [if_neg hleft]
      exact h.2

theorem growLoop_spec (h : Blocks s) (hi : s.sb.Inum i) (hle : (s.inode i).size ≤ size)
    (hmax : size ≤ maxFileSize) :
    Ends (growLoop i (size - (s.inode i).size + 1) (size - (s.inode i).size) (s.inode i).size) s
      (fun _ t => Wrote s t i (divceil (s.inode i).size bsize) (s.inode i).size
        (List.replicate (size - (s.inode i).size) 0))
      (fun _ _ => s.free + (s.file i).cost < slots (divceil size bsize)) := by
  have hloop := iwriteLoop_spec i (size - (s.inode i).size + 1) _ 0 (s.inode i).size
    (List.replicate (size - (s.inode i).size) 0) s h.owned hi (h.extent i hi) (le_divceil_mul _)
    (by rw [List.length_replicate]; omega) (by simp)
  refine growLoop_of_iwriteLoop _ _ 0 _ s (hloop.mono ?_ ?_)
  · rintro r t ⟨rfl, hwrote⟩
    exact ⟨by simp, hwrote⟩
  · intro e t hlt
    rwa [List.length_replicate, Nat.add_sub_cancel' hle, divceil_max, Nat.max_eq_right hle,
      ← cost_file] at hlt

/-! ## `itruncate` -/

/-- `itruncate` has changed the blocks of a file, then written its size to the
inode. -/
structure Trimmed (s t v : Img) (i size : Nat) : Prop where
  resized : Resized s t i (divceil (s.inode i).size bsize) (divceil size bsize)
  retagged : Retagged t v i
  type : (v.inode i).type = (s.inode i).type
  nlink : (v.inode i).nlink = (s.inode i).nlink
  bytes : v.bytes i = (s.bytes i).take size ++ List.replicate (size - (s.inode i).size) 0
  size : (v.inode i).size = size

theorem Resized.trimmed (h : Resized s t i (divceil (s.inode i).size bsize) (divceil size bsize))
    (hbytes : (t.setInode i fun d => { d with size := size }).bytes i =
      (s.bytes i).take size ++ List.replicate (size - (s.inode i).size) 0) :
    Trimmed s t (t.setInode i fun d => { d with size := size }) i size := by
  have hattrs := h.frame.attrs i
  refine ⟨h, retagged_setInode fun _ _ => rfl, ?_, ?_, hbytes, ?_⟩ <;> rw [inode_setInode]
  · exact congrArg Prod.fst hattrs
  · exact congrArg (fun a => a.2.1) hattrs

/-- **What `itruncate` does** within the limits: the file has its new size, or
the free blocks are not enough. -/
theorem itruncate_trims (h : Blocks s) (hi : s.sb.Inum i) (ht : (s.inode i).type ≠ .dev)
    (hmax : size ≤ maxFileSize) :
    Ends (itruncate i size) s (fun _ v => ∃ t, Trimmed s t v i size)
      (fun _ _ => s.free + (s.file i).cost < slots (divceil size bsize)) := by
  have he := h.extent i hi
  rw [itruncate, ends_gets_bind, if_neg ht, if_neg (by omega)]
  by_cases hlt : size < (s.inode i).size
  · rw [if_pos hlt]
    have hceil := divceil_mono (Nat.le_of_lt hlt)
    have hslots : ∀ k, k < numSlots →
        (k ∈ shrunkSlots (divceil (s.inode i).size bsize) (divceil size bsize) ↔
          Needs (divceil (s.inode i).size bsize) k ∧ ¬ Needs (divceil size bsize) k) :=
      fun _ _ => mem_shrunkSlots
    obtain ⟨t, heq, hfreed⟩ := shrink_spec h.owned hi he (divceil size bsize)
    refine Ends.bind_eq heq ⟨t, (hfreed.resized he hceil hslots (length_shrunkSlots hceil)).trimmed ?_⟩
    rw [Nat.sub_eq_zero_of_le (Nat.le_of_lt hlt), List.replicate_zero, List.append_nil, Img.bytes,
      Img.bytes, ← List.map_take, List.take_range, Nat.min_eq_left (Nat.le_of_lt hlt), inode_setInode]
    apply List.map_congr_left
    intro o ho
    rw [(retagged_setInode fun _ _ => rfl : Retagged t _ i).byte]
    exact hfreed.byte he hceil hslots (Nat.lt_of_lt_of_le (List.mem_range.mp ho) (le_divceil_mul _))
  · rw [if_neg hlt]
    have hge := Nat.le_of_not_lt hlt
    refine (growLoop_spec h hi hge hmax).bind fun _ t hwrote => ?_
    have hext := hwrote.extent
    have hfree := hwrote.free
    rw [List.length_replicate, Nat.add_sub_cancel' hge, divceil_max, Nat.max_eq_right hge] at hext hfree
    refine ⟨t, Resized.trimmed ⟨hwrote.frame, hext, fun k hk hneeds _ => ?_, hfree⟩ ?_⟩
    · exact hwrote.slots i k ⟨hi, hk⟩ ((he.iff k hk).mpr hneeds)
    · have hsize : size = max (s.inode i).size ((s.inode i).size +
          (List.replicate (size - (s.inode i).size) (0 : UInt8)).length) := by
        rw [List.length_replicate]
        omega
      have hbytes := hwrote.bytes (retagged_setInode (g := fun d => { d with size := size })
        fun _ _ => rfl) (Nat.le_refl _) (by rw [inode_setInode]; exact hsize)
      rw [hbytes, overwrite_end length_bytes, List.take_of_length_le (by rwa [length_bytes])]

/-- **`itruncate` to nothing.** -/
theorem itruncate_spec (h : Blocks s) (hi : s.sb.Inum i) (ht : (s.inode i).type ≠ .dev) :
    ∃ t, itruncate i 0 s = (.ok (), t) ∧ Becomes s t i { s.file i with data := [] } := by
  have htrims := itruncate_trims h hi ht (Nat.zero_le maxFileSize)
  obtain ⟨_, v, heq, t, htrim⟩ := (htrims.mono (fun _ _ hq => hq)
    fun _ _ hlt => absurd hlt (Nat.not_lt_zero _)).exists_eq
  refine ⟨v, heq, ?_⟩
  have hbecomes := htrim.resized.frame.becomes h htrim.retagged
    (by rw [htrim.size]; exact htrim.resized.extent) (fun _ => htrim.size)
    (by rw [htrim.size]; exact htrim.resized.free)
  rw [Img.file, htrim.bytes, htrim.type, htrim.nlink, List.take_zero, Nat.zero_sub] at hbecomes
  exact hbecomes

end Yaos.Fs
