import Yaos.Fs.Image
import Mathlib.Data.List.Range

/-!
# Which blocks belong to which file

An inode refers to blocks through slots: its `NDIRECT` direct entries, the
pointer to its indirect block, and the entries of that block. `Owned` says
that the slots in use hold different data blocks and that the bitmap has
exactly these. A block is taken from the bitmap and stored in a slot
(`Owned.attach`), or given back and its slot cleared (`Owned.detach`); nothing
else touches either.
-/

namespace Yaos.Fs

open Yaos.Lib Prog Function

def numSlots : Nat := ndirect + 1 + nindirect

/-- The block in a slot, 0 if there is none: a direct entry, the indirect
block, or an entry of the indirect block. -/
def Img.slot (img : Img) (i k : Nat) : Nat :=
  if k ≤ ndirect then (img.inode i).addrs k
  else if (img.inode i).addrs ndirect = 0 then 0
  else word (img.data ((img.inode i).addrs ndirect)) (k - (ndirect + 1))

/-- The slot of a block of a file. -/
def slotOf (j : Nat) : Nat := if j < ndirect then j else j + 1

/-- The slots that a file of `n` blocks needs. -/
def Needs (n k : Nat) : Prop := if k < ndirect then k < n else if k = ndirect then ndirect < n else k ≤ n

instance (n k : Nat) : Decidable (Needs n k) := by
  unfold Needs
  infer_instance

def slots (n : Nat) : Nat := n + if ndirect < n then 1 else 0

def Super.Inum (sb : Super) (i : Nat) : Prop := 0 < i ∧ i < sb.ninodes

instance (sb : Super) (i : Nat) : Decidable (sb.Inum i) := inferInstanceAs (Decidable (_ ∧ _))

def Super.IsSlot (sb : Super) (i k : Nat) : Prop := sb.Inum i ∧ k < numSlots

/-- The sizes in the super block fit together, and numbers fit their types. -/
structure Layout (sb : Super) : Prop where
  total : sb.dataStart + sb.nblocks + sb.nlog = sb.size
  blocks : sb.size < 2 ^ 31
  inodes : sb.ninodes ≤ 2 ^ 16
  root : 1 < sb.ninodes

structure Owned (img : Img) : Prop where
  layout : Layout img.sb
  valid : ∀ i k, img.sb.IsSlot i k → img.slot i k ≠ 0 → img.sb.validDataBlock (img.slot i k) = true
  inj : ∀ i k i' k', img.sb.IsSlot i k → img.sb.IsSlot i' k' → img.slot i k ≠ 0 →
    img.slot i' k' = img.slot i k → i' = i ∧ k' = k
  bits : ∀ b, img.sb.validDataBlock b = true →
    (img.bit b = true ↔ ∃ i k, img.sb.IsSlot i k ∧ img.slot i k = b)
  low : ∀ b, b < img.sb.dataStart → img.bit b = true

/-- The number of data blocks that are not in use. -/
def Img.free (img : Img) : Nat :=
  (List.range' img.sb.dataStart img.sb.nblocks).countP fun b => !img.bit b

variable {img t : Img} {sb : Super} {i k b c v : Nat}

/-! ## Numbers -/

theorem Super.dataStart_pos (sb : Super) : 0 < sb.dataStart := Nat.succ_pos _

theorem valid_iff : sb.validDataBlock b = true ↔ sb.dataStart ≤ b ∧ b < sb.dataStart + sb.nblocks := by
  rw [Super.validDataBlock, decide_eq_true_eq]
  have := sb.dataStart_pos
  omega

theorem valid_ne_zero (h : sb.validDataBlock b = true) : b ≠ 0 := by
  have := sb.dataStart_pos
  rw [valid_iff] at h
  omega

theorem ne_of_valid (hb : sb.validDataBlock b = true) (hc : sb.validDataBlock c = false) : c ≠ b := by
  intro heq
  rw [heq, hb] at hc
  cases hc

theorem Layout.lt_size (h : Layout sb) (hb : sb.validDataBlock b = true) : b < sb.size := by
  rw [valid_iff] at hb
  have := h.total
  omega

theorem word_setWord {bytes : Nat → UInt8} (hv : v < 2 ^ 32) (j : Nat) :
    word (setWord bytes k v) j = if j = k then v else word bytes j := by
  have hdiv : ∀ r, r < 4 → (4 * j + r) / 4 = j ∧ (4 * j + r) % 4 = r := by omega
  have h0 := hdiv 0 (by decide)
  have h1 := hdiv 1 (by decide)
  have h2 := hdiv 2 (by decide)
  have h3 := hdiv 3 (by decide)
  rw [Nat.add_zero] at h0
  simp only [word, setWord, h0, h1, h2, h3]
  split
  · simp only [UInt8.toNat_ofNat', Nat.reducePow]
    omega
  · rfl

theorem word_zero (j : Nat) : word (fun _ => 0) j = 0 := rfl

theorem countP_remove {p p' : Nat → Bool} {l : List Nat} (hl : l.Nodup) (hb : b ∈ l)
    (hp : p b = true) (hp' : p' b = false) (hother : ∀ x, x ≠ b → p' x = p x) :
    l.countP p' + 1 = l.countP p := by
  induction l with
  | nil => cases hb
  | cons x l ih =>
    obtain ⟨hx, hl⟩ := List.nodup_cons.mp hl
    rw [List.countP_cons, List.countP_cons]
    by_cases hxb : x = b
    · subst hxb
      have hrest : l.countP p' = l.countP p :=
        List.countP_congr fun y hy => by rw [hother y (ne_of_mem_of_not_mem hy hx)]
      simp [hp, hp', hrest]
    · have hbl : b ∈ l := (List.mem_cons.mp hb).resolve_left (Ne.symm hxb)
      have := ih hl hbl
      rw [hother x hxb]
      omega

theorem mem_dataRange : b ∈ List.range' sb.dataStart sb.nblocks ↔ sb.validDataBlock b = true := by
  rw [List.mem_range'_1, valid_iff]

theorem free_set (hsb : t.sb = img.sb) (hv : img.sb.validDataBlock b = true)
    (hb : img.bit b = false) (hbit : t.bit = update img.bit b true) :
    t.free + 1 = img.free := by
  rw [Img.free, Img.free, hsb]
  refine countP_remove (List.nodup_range' ..) (mem_dataRange.mpr hv) ?_ ?_ ?_
  · simp [hb]
  · simp [hbit]
  · intro x hx
    simp [hbit, update_of_ne hx]

theorem free_clear (hsb : t.sb = img.sb) (hv : img.sb.validDataBlock b = true)
    (hb : img.bit b = true) (hbit : t.bit = update img.bit b false) :
    t.free = img.free + 1 := by
  symm
  apply free_set hsb.symm
  · rwa [hsb]
  · rw [hbit, update_self]
  · rw [hbit, update_idem, ← hb, update_eq_self]

theorem free_congr (hsb : t.sb = img.sb) (hbit : t.bit = img.bit) : t.free = img.free := by
  rw [Img.free, Img.free, hsb, hbit]

/-! ## Slots -/

theorem Owned.bit_of_slot (h : Owned img) (hik : img.sb.IsSlot i k) (h0 : img.slot i k ≠ 0) :
    img.bit (img.slot i k) = true :=
  (h.bits _ (h.valid i k hik h0)).mpr ⟨i, k, hik, rfl⟩

theorem Owned.slot_ne (h : Owned img) (hv : img.sb.validDataBlock b = true) (hb : img.bit b = false)
    (hik : img.sb.IsSlot i k) : img.slot i k ≠ b := by
  rintro rfl
  rw [h.bit_of_slot hik (valid_ne_zero hv)] at hb
  cases hb

theorem Owned.congr (h : Owned img) (hsb : t.sb = img.sb) (hbit : t.bit = img.bit)
    (hslot : ∀ i k, img.sb.IsSlot i k → t.slot i k = img.slot i k) : Owned t where
  layout := hsb ▸ h.layout
  valid i k hik h0 := by
    rw [hsb] at hik ⊢
    rw [hslot i k hik] at h0 ⊢
    exact h.valid i k hik h0
  inj i k i' k' hik hik' h0 heq := by
    rw [hsb] at hik hik'
    rw [hslot i k hik] at h0 heq
    rw [hslot i' k' hik'] at heq
    exact h.inj i k i' k' hik hik' h0 heq
  bits b hb := by
    rw [hsb] at hb ⊢
    rw [hbit, h.bits b hb]
    constructor
    · rintro ⟨i, k, hik, heq⟩
      exact ⟨i, k, hik, (hslot i k hik).trans heq⟩
    · rintro ⟨i, k, hik, heq⟩
      exact ⟨i, k, hik, (hslot i k hik).symm.trans heq⟩
  low b hb := by
    rw [hsb] at hb
    rw [hbit]
    exact h.low b hb

/-- **A block that is not in use goes into a slot.** -/
theorem Owned.attach (h : Owned img) (hik : img.sb.IsSlot i k) (h0 : img.slot i k = 0)
    (hv : img.sb.validDataBlock b = true) (hb : img.bit b = false) (hsb : t.sb = img.sb)
    (hbit : t.bit = update img.bit b true)
    (hslot : ∀ i' k', img.sb.IsSlot i' k' →
      t.slot i' k' = if i' = i ∧ k' = k then b else img.slot i' k') : Owned t where
  layout := hsb ▸ h.layout
  valid i' k' hik' h0' := by
    rw [hsb] at hik' ⊢
    rw [hslot i' k' hik'] at h0' ⊢
    split
    · exact hv
    next hne =>
      rw [if_neg hne] at h0'
      exact h.valid i' k' hik' h0'
  inj i₁ k₁ i₂ k₂ h₁ h₂ hne heq := by
    rw [hsb] at h₁ h₂
    rw [hslot i₁ k₁ h₁] at hne heq
    rw [hslot i₂ k₂ h₂] at heq
    by_cases c₁ : i₁ = i ∧ k₁ = k
    · by_cases c₂ : i₂ = i ∧ k₂ = k
      · exact ⟨c₂.1.trans c₁.1.symm, c₂.2.trans c₁.2.symm⟩
      · rw [if_pos c₁, if_neg c₂] at heq
        exact absurd heq (h.slot_ne hv hb h₂)
    · rw [if_neg c₁] at hne heq
      by_cases c₂ : i₂ = i ∧ k₂ = k
      · rw [if_pos c₂] at heq
        exact absurd heq.symm (h.slot_ne hv hb h₁)
      · rw [if_neg c₂] at heq
        exact h.inj i₁ k₁ i₂ k₂ h₁ h₂ hne heq
  bits b' hb' := by
    rw [hsb] at hb' ⊢
    by_cases hbb : b' = b
    · subst hbb
      rw [hbit, update_self]
      refine iff_of_true rfl ⟨i, k, hik, ?_⟩
      rw [hslot i k hik, if_pos ⟨rfl, rfl⟩]
    · rw [hbit, update_of_ne hbb, h.bits b' hb']
      constructor
      · rintro ⟨i', k', hik', heq⟩
        refine ⟨i', k', hik', ?_⟩
        rw [hslot i' k' hik', if_neg, heq]
        rintro ⟨rfl, rfl⟩
        exact valid_ne_zero hb' (heq.symm.trans h0)
      · rintro ⟨i', k', hik', heq⟩
        rw [hslot i' k' hik'] at heq
        split at heq
        · exact absurd heq.symm hbb
        · exact ⟨i', k', hik', heq⟩
  low b' hb' := by
    rw [hsb] at hb'
    rw [hbit]
    by_cases hbb : b' = b
    · rw [hbb, update_self]
    · rw [update_of_ne hbb]
      exact h.low b' hb'

/-- **The block of a slot is given back** and the slot cleared. -/
theorem Owned.detach (h : Owned img) (hik : img.sb.IsSlot i k) (h0 : img.slot i k ≠ 0)
    (hsb : t.sb = img.sb) (hbit : t.bit = update img.bit (img.slot i k) false)
    (hslot : ∀ i' k', img.sb.IsSlot i' k' →
      t.slot i' k' = if i' = i ∧ k' = k then 0 else img.slot i' k') : Owned t where
  layout := hsb ▸ h.layout
  valid i' k' hik' h0' := by
    rw [hsb] at hik' ⊢
    rw [hslot i' k' hik'] at h0' ⊢
    split at h0'
    · exact absurd rfl h0'
    next hne =>
      rw [if_neg hne]
      exact h.valid i' k' hik' h0'
  inj i₁ k₁ i₂ k₂ h₁ h₂ hne heq := by
    rw [hsb] at h₁ h₂
    rw [hslot i₁ k₁ h₁] at hne heq
    rw [hslot i₂ k₂ h₂] at heq
    split at hne
    · exact absurd rfl hne
    next c₁ =>
      rw [if_neg c₁] at heq
      split at heq
      · exact absurd heq.symm hne
      · exact h.inj i₁ k₁ i₂ k₂ h₁ h₂ hne heq
  bits b' hb' := by
    rw [hsb] at hb' ⊢
    by_cases hbb : b' = img.slot i k
    · rw [hbit, hbb, update_self]
      refine iff_of_false (by simp) ?_
      rintro ⟨i', k', hik', heq⟩
      rw [hslot i' k' hik'] at heq
      split at heq
      · exact h0 heq.symm
      next hne => exact hne (h.inj i k i' k' hik hik' h0 heq)
    · rw [hbit, update_of_ne hbb, h.bits b' hb']
      constructor
      · rintro ⟨i', k', hik', heq⟩
        refine ⟨i', k', hik', ?_⟩
        rw [hslot i' k' hik', if_neg, heq]
        rintro ⟨rfl, rfl⟩
        exact hbb heq.symm
      · rintro ⟨i', k', hik', heq⟩
        rw [hslot i' k' hik'] at heq
        split at heq
        · exact absurd heq.symm (valid_ne_zero hb')
        · exact ⟨i', k', hik', heq⟩
  low b' hb' := by
    rw [hsb] at hb'
    have hne : b' ≠ img.slot i k := by
      have hvalid := valid_iff.mp (h.valid i k hik h0)
      omega
    rw [hbit, update_of_ne hne]
    exact h.low b' hb'

/-! ## Taking a block -/

/-- What an inode says about its file, but for where it is. -/
def Inode.attrs (d : Inode) : FileType × Nat × Nat := (d.type, d.nlink, d.size)

/-- What is kept when a block goes into a slot: everything but the slot, and
the contents of the blocks that hold the bytes of files. -/
structure Attached (s t : Img) (i k b : Nat) : Prop where
  sb : t.sb = s.sb
  owned : Owned t
  valid : s.sb.validDataBlock b = true
  slot : ∀ i' k', s.sb.IsSlot i' k' → t.slot i' k' = if i' = i ∧ k' = k then b else s.slot i' k'
  outside : ∀ c, s.sb.validDataBlock c = false → t.bit c = s.bit c
  free : t.free + 1 = s.free
  attrs : ∀ i', (t.inode i').attrs = (s.inode i').attrs
  data : ∀ i' k', s.sb.IsSlot i' k' → k' ≠ ndirect → s.slot i' k' ≠ 0 →
    t.data (s.slot i' k') = s.data (s.slot i' k')

/-- What a stop for want of blocks leaves: the bytes of files are where they
were. -/
structure Halted (s t : Img) : Prop where
  sb : t.sb = s.sb
  attrs : ∀ i, (t.inode i).attrs = (s.inode i).attrs
  slot : ∀ i k, s.sb.IsSlot i k → s.slot i k ≠ 0 → t.slot i k = s.slot i k
  data : ∀ i k, s.sb.IsSlot i k → k ≠ ndirect → s.slot i k ≠ 0 →
    t.data (s.slot i k) = s.data (s.slot i k)

theorem halted_setBit (s : Img) (b : Nat) (v : Bool) : Halted s (s.setBit b v) :=
  ⟨rfl, fun _ => rfl, fun _ _ _ _ => rfl, fun _ _ _ _ _ => rfl⟩

theorem Halted.refl (s : Img) : Halted s s :=
  ⟨rfl, fun _ => rfl, fun _ _ _ _ => rfl, fun _ _ _ _ _ => rfl⟩

theorem Attached.halted {s t u : Img} (h : Attached s t i k b) (h0 : s.slot i k = 0)
    (hu : Halted t u) : Halted s u := by
  have hslot : ∀ i' k', s.sb.IsSlot i' k' → s.slot i' k' ≠ 0 → t.slot i' k' = s.slot i' k' := by
    intro i' k' hik hne
    rw [h.slot i' k' hik, if_neg]
    rintro ⟨rfl, rfl⟩
    exact hne h0
  refine ⟨hu.sb.trans h.sb, fun i' => (hu.attrs i').trans (h.attrs i'), fun i' k' hik hne => ?_,
    fun i' k' hik hk hne => ?_⟩
  · have hsame := hslot i' k' hik hne
    rw [hu.slot i' k' (h.sb ▸ hik) (hsame ▸ hne), hsame]
  · have hsame := hslot i' k' hik hne
    rw [← h.data i' k' hik hk hne, ← hsame]
    exact hu.data i' k' (h.sb ▸ hik) hk (hsame ▸ hne)

/-- The state in which `balloc` returns `b`. -/
def Img.taken (s : Img) (b : Nat) : Img := (s.setBit b true).setData b fun _ => 0

/-- **What `balloc` does**: it takes a data block that is not in use; if there
is none it stops. -/
theorem balloc_spec (h : Owned img) :
    Ends balloc img
      (fun b t => img.sb.validDataBlock b = true ∧ img.bit b = false ∧ t = img.taken b)
      (fun _ t => img.free = 0 ∧ Halted img t) := by
  have hnone : (∀ b, img.sb.validDataBlock b = true → img.bit b = true) → img.free = 0 := by
    intro hall
    rw [Img.free, List.countP_eq_zero]
    intro b hb
    simp [hall b (mem_dataRange.mp hb)]
  rw [balloc, ends_gets_bind]
  cases hfind : (List.range img.sb.size).find? fun b => !img.bit b with
  | none =>
    simp only [id, hfind, ends_stop]
    refine ⟨hnone fun b hb => ?_, .refl img⟩
    have := List.find?_eq_none.mp hfind b (List.mem_range.mpr (h.layout.lt_size hb))
    simpa using this
  | some c =>
    obtain ⟨hc, -, hbefore⟩ := List.find?_range_eq_some.mp hfind
    have hc : img.bit c = false := by simpa using hc
    simp only [id, hfind, ends_modify_bind]
    split
    next hv => exact ⟨hv, hc, rfl⟩
    next hv =>
      -- the first clear bit lies behind the data blocks
      refine ⟨hnone fun b hb => ?_, halted_setBit img c true⟩
      have hlow : img.sb.dataStart ≤ c := by
        by_contra hlt
        rw [h.low c (Nat.lt_of_not_le hlt)] at hc
        cases hc
      rw [valid_iff] at hb hv
      have := hbefore b (by omega)
      simpa using this

theorem slot_of_le (hk : k ≤ ndirect) : img.slot i k = (img.inode i).addrs k := if_pos hk

theorem slot_of_gt (hk : ndirect < k) (h0 : img.slot i ndirect ≠ 0) :
    img.slot i k = word (img.data (img.slot i ndirect)) (k - (ndirect + 1)) := by
  rw [slot_of_le (Nat.le_refl _)] at h0 ⊢
  rw [Img.slot, if_neg (Nat.not_le.mpr hk), if_neg h0]

theorem slot_eq_zero (hk : ndirect < k) (h0 : img.slot i ndirect = 0) : img.slot i k = 0 := by
  rw [slot_of_le (Nat.le_refl _)] at h0
  rw [Img.slot, if_neg (Nat.not_le.mpr hk), if_pos h0]

theorem isSlot_ndirect (hi : sb.Inum i) : sb.IsSlot i ndirect := ⟨hi, by decide⟩

/-- Two images agree on a slot behind the indirect block if they agree on the
block and on what is in it. -/
theorem slot_congr (hk : ndirect < k) (h : t.slot i ndirect = img.slot i ndirect)
    (hdata : img.slot i ndirect ≠ 0 → t.data (img.slot i ndirect) = img.data (img.slot i ndirect)) :
    t.slot i k = img.slot i k := by
  by_cases h0 : img.slot i ndirect = 0
  · rw [slot_eq_zero hk h0, slot_eq_zero hk (h.trans h0)]
  · rw [slot_of_gt hk h0, slot_of_gt hk (h ▸ h0), h, hdata h0]

theorem data_taken_of_ne (hcb : c ≠ b) : (img.taken b).data c = img.data c :=
  update_of_ne hcb _ _

theorem inode_setAddr_of_ne {j : Nat} (hj : j ≠ i) : (img.setAddr i k b).inode j = img.inode j :=
  update_of_ne hj _ _

theorem addrs_setAddr : ((img.setAddr i k b).inode i).addrs = update (img.inode i).addrs k b := by
  rw [Img.setAddr, Img.setInode]
  simp only [update_self]

theorem attrs_setAddr (i' : Nat) : ((img.setAddr i k b).inode i').attrs = (img.inode i').attrs := by
  by_cases hi : i' = i
  · subst hi
    rw [Img.setAddr, Img.setInode]
    simp only [update_self]
    rfl
  · rw [inode_setAddr_of_ne hi]

theorem slot_setAddr_of_le {i' k' : Nat} (hk' : k' ≤ ndirect) :
    (img.setAddr i k b).slot i' k' = if i' = i ∧ k' = k then b else img.slot i' k' := by
  rw [slot_of_le hk', slot_of_le hk']
  by_cases hi : i' = i
  · subst hi
    rw [addrs_setAddr, update_apply]
    simp
  · rw [inode_setAddr_of_ne hi, if_neg fun h => hi h.1]

theorem Owned.slot_taken (h : Owned img) (hv : img.sb.validDataBlock b = true)
    (hb : img.bit b = false) (hik : img.sb.IsSlot i k) : (img.taken b).slot i k = img.slot i k := by
  by_cases hk : k ≤ ndirect
  · rw [slot_of_le hk, slot_of_le hk]
    rfl
  · refine slot_congr (Nat.lt_of_not_le hk) rfl fun _ => ?_
    exact data_taken_of_ne (h.slot_ne hv hb (isSlot_ndirect hik.1))

theorem Owned.slot_setAddr (h : Owned img) (hi : img.sb.Inum i) (hk : k ≤ ndirect)
    (h0 : img.slot i k = 0) (hv : img.sb.validDataBlock b = true) (hb : img.bit b = false)
    (i' k' : Nat) (hik : img.sb.IsSlot i' k') :
    ((img.taken b).setAddr i k b).slot i' k' = if i' = i ∧ k' = k then b else img.slot i' k' := by
  by_cases hk' : k' ≤ ndirect
  · rw [slot_setAddr_of_le hk', h.slot_taken hv hb hik]
  · have hlt := Nat.lt_of_not_le hk'
    have hne : ¬ (i' = i ∧ k' = k) := fun heq => hk' (heq.2 ▸ hk)
    rw [if_neg hne, ← h.slot_taken hv hb hik]
    have hind : ((img.taken b).setAddr i k b).slot i' ndirect =
        if i' = i ∧ ndirect = k then b else (img.taken b).slot i' ndirect :=
      slot_setAddr_of_le (Nat.le_refl _)
    by_cases hcase : i' = i ∧ ndirect = k
    · -- a new indirect block: it has been cleared
      obtain ⟨rfl, rfl⟩ := hcase
      rw [if_pos ⟨rfl, rfl⟩] at hind
      rw [slot_eq_zero hlt ((h.slot_taken hv hb (isSlot_ndirect hi)).trans h0),
        slot_of_gt hlt (by rw [hind]; exact valid_ne_zero hv), hind]
      show word (update img.data b (fun _ => 0) b) _ = 0
      rw [update_self, word_zero]
    · rw [if_neg hcase] at hind
      exact slot_congr hlt hind fun _ => rfl

theorem Owned.attached_addr (h : Owned img) (hi : img.sb.Inum i) (hk : k ≤ ndirect)
    (h0 : img.slot i k = 0) (hv : img.sb.validDataBlock b = true) (hb : img.bit b = false) :
    Attached img ((img.taken b).setAddr i k b) i k b where
  sb := rfl
  owned := h.attach ⟨hi, Nat.lt_of_le_of_lt hk (by decide)⟩ h0 hv hb rfl rfl
    (h.slot_setAddr hi hk h0 hv hb)
  valid := hv
  slot := h.slot_setAddr hi hk h0 hv hb
  outside c hc := update_of_ne (ne_of_valid hv hc) _ _
  free := free_set rfl hv hb rfl
  attrs i' := attrs_setAddr i'
  data i' k' hik' _ _ := data_taken_of_ne (h.slot_ne hv hb hik')

theorem data_setWord : (img.setWord b k v).data b = setWord (img.data b) k v :=
  update_self ..

theorem slot_setWord
    (hinj : ∀ i', img.sb.Inum i' → img.slot i' ndirect = img.slot i ndirect → i' = i)
    (h0 : img.slot i ndirect ≠ 0) (hk : ndirect < k) (hv : v < 2 ^ 32) (i' k' : Nat) (hik : img.sb.IsSlot i' k') :
    (img.setWord (img.slot i ndirect) (k - (ndirect + 1)) v).slot i' k' =
      if i' = i ∧ k' = k then v else img.slot i' k' := by
  by_cases hk' : k' ≤ ndirect
  · have hne : ¬ (i' = i ∧ k' = k) := fun heq => absurd (heq.2 ▸ hk') (Nat.not_le.mpr hk)
    rw [if_neg hne, slot_of_le hk', slot_of_le hk']
    rfl
  · have hlt := Nat.lt_of_not_le hk'
    by_cases hii : i' = i
    · subst hii
      have hind : (img.setWord (img.slot i' ndirect) (k - (ndirect + 1)) v).slot i' ndirect =
          img.slot i' ndirect := rfl
      rw [slot_of_gt hlt (hind ▸ h0), slot_of_gt hlt h0, hind, data_setWord, word_setWord hv]
      have hiff : k' - (ndirect + 1) = k - (ndirect + 1) ↔ k' = k := by omega
      simp only [hiff, true_and]
    · rw [if_neg fun heq => hii heq.1]
      exact slot_congr hlt rfl fun _ => update_of_ne (fun heq => hii (hinj i' hik.1 heq)) _ _

theorem Owned.attached_word (h : Owned img) (hi : img.sb.Inum i) (hk : ndirect < k)
    (hks : k < numSlots) (hind : img.slot i ndirect ≠ 0) (h0 : img.slot i k = 0)
    (hv : img.sb.validDataBlock b = true) (hb : img.bit b = false) :
    Attached img ((img.taken b).setWord (img.slot i ndirect) (k - (ndirect + 1)) b) i k b := by
  have hb32 : b < 2 ^ 32 := by
    have := h.layout.lt_size hv
    have := h.layout.blocks
    omega
  have hsame := fun i' (hi' : img.sb.Inum i') => h.slot_taken hv hb (isSlot_ndirect hi')
  have hslot : ∀ i' k', img.sb.IsSlot i' k' →
      ((img.taken b).setWord (img.slot i ndirect) (k - (ndirect + 1)) b).slot i' k' =
        if i' = i ∧ k' = k then b else img.slot i' k' := by
    intro i' k' hik
    rw [← h.slot_taken hv hb hik, ← hsame i hi]
    refine slot_setWord ?_ ?_ hk hb32 i' k' hik
    · intro j hj heq
      rw [hsame j hj, hsame i hi] at heq
      exact (h.inj i ndirect j ndirect (isSlot_ndirect hi) (isSlot_ndirect hj) hind heq).1
    · rw [hsame i hi]
      exact hind
  exact {
    sb := rfl
    owned := h.attach ⟨hi, hks⟩ h0 hv hb rfl rfl hslot
    valid := hv
    slot := hslot
    outside := fun c hc => update_of_ne (ne_of_valid hv hc) _ _
    free := free_set rfl hv hb rfl
    attrs := fun _ => rfl
    data := by
      intro i' k' hik hk' h0'
      have hne' : img.slot i' k' ≠ img.slot i ndirect := fun heq =>
        hk' (h.inj i ndirect i' k' (isSlot_ndirect hi) hik hind heq).2
      show update _ _ _ _ = _
      rw [update_of_ne hne']
      exact data_taken_of_ne (h.slot_ne hv hb hik) }

theorem Owned.ensure_spec {store : Img → Nat → Img} (h : Owned img)
    (hstore : ∀ b, img.sb.validDataBlock b = true → img.bit b = false →
      Attached img (store (img.taken b) b) i k b) :
    Ends (ensure 0 store) img (fun b t => Attached img t i k b)
      (fun _ t => img.free = 0 ∧ Halted img t) := by
  rw [ensure, if_pos rfl]
  apply (balloc_spec h).bind
  intro b t hb
  obtain ⟨hv, hbit, rfl⟩ := hb
  exact hstore b hv hbit

theorem ensure_of_ne {store : Img → Nat → Img} (hb : b ≠ 0) :
    ensure b store img = (.ok b, img) := by
  rw [ensure, if_neg hb]
  rfl

end Yaos.Fs
