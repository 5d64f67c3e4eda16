import Yaos.Fs.Tidy

/-!
# The image that `mkfs` writes

Runs of `opfs` begin with an image that `mkfs` has written. It is in order.
-/

namespace Yaos.Fs

open Yaos.Lib

def rootBytes : List UInt8 := Dirent.toBytes ⟨root, dot⟩ ++ Dirent.toBytes ⟨root, dotdot⟩

/-- The image without files: the size of the root directory is rounded up to a
block, and the bits up to its block are set. -/
def formatted (sb : Super) : Img where
  sb := sb
  inode i :=
    if i = root then ⟨.dir, 1, bsize, fun k => if k = 0 then sb.dataStart else 0⟩
    else ⟨.free, 0, 0, fun _ => 0⟩
  bit b := b ≤ sb.dataStart
  data b o := if b = sb.dataStart then rootBytes.getD o 0 else 0

def rootEnts : List Dirent := ⟨root, dot⟩ :: ⟨root, dotdot⟩ :: List.replicate 30 ⟨0, []⟩

variable {sb : Super} {i k b : Nat}

theorem inode_formatted_of_ne (hi : i ≠ root) :
    (formatted sb).inode i = ⟨.free, 0, 0, fun _ => 0⟩ := if_neg hi

theorem slot_formatted : (formatted sb).slot i k = if i = root ∧ k = 0 then sb.dataStart else 0 := by
  by_cases hi : i = root
  · subst hi
    rw [Img.slot]
    by_cases hk : k ≤ ndirect
    · rw [if_pos hk]
      simp [formatted]
    · have hk0 : k ≠ 0 := by omega
      rw [if_neg hk]
      exact (if_pos rfl).trans (if_neg (by simp [hk0])).symm
  · rw [if_neg (by simp [hi]), Img.slot, inode_formatted_of_ne hi]
    simp

theorem bytes_formatted : (formatted sb).bytes root = (List.range bsize).map (rootBytes.getD · 0) := by
  refine List.map_congr_left fun o ho => ?_
  have ho : o < bsize := List.mem_range.mp ho
  have hblock : (formatted sb).block root (o / bsize) = sb.dataStart := by
    rw [Nat.div_eq_of_lt ho]
    exact slot_formatted
  rw [Img.byte, hblock, Nat.mod_eq_of_lt ho]
  exact if_pos rfl

theorem isDir_formatted (h : Layout sb) : (formatted sb).IsDir root :=
  ⟨⟨Nat.one_pos, h.root⟩, rfl⟩

theorem ents_formatted (h : Layout sb) : ((formatted sb).node root).ents = rootEnts := by
  rw [ents_of_dir (isDir_formatted h), bytes_formatted]
  decide +kernel

theorem type_formatted (hi : ((formatted sb).node i).type = .dir) : i = root := by
  obtain ⟨-, htype⟩ := isDir_iff.mpr hi
  by_contra hne
  rw [inode_formatted_of_ne hne] at htype
  cases htype

theorem owned_formatted (h : Layout sb) (hn : 0 < sb.nblocks) : Owned (formatted sb) where
  layout := h
  valid i k _ hne := by
    rw [slot_formatted] at hne ⊢
    split
    · exact valid_iff.mpr ⟨Nat.le_refl _, Nat.lt_add_of_pos_right hn⟩
    next hno => exact absurd (if_neg hno) hne
  inj i k i' k' _ _ hne heq := by
    have hpos := sb.dataStart_pos
    rw [slot_formatted] at hne heq
    rw [slot_formatted] at heq
    split at hne
    next hik =>
      rw [if_pos hik] at heq
      split at heq
      next hik' => exact ⟨hik'.1.trans hik.1.symm, hik'.2.trans hik.2.symm⟩
      next => omega
    next => exact absurd rfl hne
  bits b hb := by
    have hpos := sb.dataStart_pos
    have hle := (valid_iff.mp hb).1
    constructor
    · intro hbit
      have hbit : b ≤ sb.dataStart := of_decide_eq_true hbit
      refine ⟨root, 0, ⟨⟨Nat.one_pos, h.root⟩, by decide⟩, ?_⟩
      rw [slot_formatted, if_pos ⟨rfl, rfl⟩]
      exact Nat.le_antisymm hle hbit
    · rintro ⟨i, k, -, hslot⟩
      rw [slot_formatted] at hslot
      refine decide_eq_true (?_ : b ≤ sb.dataStart)
      split at hslot <;> omega
  low b hb := decide_eq_true (Nat.le_of_lt hb)

theorem blocks_formatted (h : Layout sb) (hn : 0 < sb.nblocks) : Blocks (formatted sb) where
  owned := owned_formatted h hn
  extent i _ := by
    by_cases hi : i = root
    · subst hi
      have hsize : ((formatted sb).inode root).size = bsize := rfl
      have hone : divceil bsize bsize = 1 := by decide
      rw [hsize, hone]
      refine ⟨by decide, fun k _ => ?_⟩
      have hpos := sb.dataStart_pos
      rw [slot_formatted]
      unfold Needs ndirect
      split_ifs <;> omega
    · rw [inode_formatted_of_ne hi]
      refine ⟨by decide, fun k _ => ?_⟩
      show (formatted sb).slot i k ≠ 0 ↔ Needs 0 k
      rw [slot_formatted, if_neg (by simp [hi])]
      exact ⟨fun h0 => absurd rfl h0, fun hneeds => absurd hneeds not_needs_zero⟩
  empty i _ htype := by
    by_cases hi : i = root
    · subst hi
      rcases htype with htype | htype <;> cases htype
    · rw [inode_formatted_of_ne hi]

/-- **What `mkfs` writes is in order.** -/
theorem tidy_formatted (h : Layout sb) (hn : 0 < sb.nblocks) : Tidy (formatted sb) where
  sound := by
    refine ⟨blocks_formatted h hn, fun i _ htype => ?_⟩
    have hi : i = root := by
      by_contra hne
      rw [inode_formatted_of_ne hne] at htype
      cases htype
    subst hi
    show direntSize ∣ bsize
    decide
  dirs := by
    refine ⟨isDir_iff.mp (isDir_formatted h), fun d hd => ?_⟩
    rw [type_formatted hd, ents_formatted h]
    have hroot : sb.Inum root := ⟨Nat.one_pos, h.root⟩
    refine ⟨⟨root, hroot, rfl⟩, ⟨root, hroot, rfl⟩, fun j e hj he hlive => ?_⟩
    obtain ⟨m, rfl⟩ : ∃ m, j = m + 2 := ⟨j - 2, by omega⟩
    have hmem : e ∈ List.replicate 30 (⟨0, []⟩ : Dirent) := List.mem_of_getElem? he
    rw [List.eq_of_mem_replicate hmem] at hlive
    exact absurd rfl hlive

/-- A file system of eight inodes with `n` data blocks and two blocks of log. -/
def small (n : Nat) : Super := ⟨7 + n, n, 8, 2⟩

theorem layout_small {n : Nat} (hn : n < 100) : Layout (small n) where
  total := by
    have hbits : (7 + n) / (bsize * 8) = 0 := Nat.div_eq_of_lt (by unfold bsize; omega)
    have hinodes : 8 / ipb = 1 := rfl
    show 2 + (8 / ipb + 1) + ((7 + n) / (bsize * 8) + 1) + n + 2 = 7 + n
    omega
  blocks := by
    show 7 + n < 2 ^ 31
    omega
  inodes := show 8 ≤ 2 ^ 16 by decide
  root := show 1 < 8 by decide

theorem tidy_small {n : Nat} (h0 : 0 < n) (hn : n < 100) : Tidy (formatted (small n)) :=
  tidy_formatted (layout_small hn) h0

end Yaos.Fs
