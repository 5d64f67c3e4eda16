import Yaos.Fs.Commands

/-!
# Blocks over whole runs of `opfs`

A run is a list of commands, each on the image that the one before it left,
however it ended. `Accounted` is what `fsck` would check of the blocks. It holds
in every image of a run whose commands find the blocks they may need; without
them, `fatal` leaves from the middle of a write. And `do_cp` gives blocks to an
inode that is free, if that is where the destination leads.
-/

namespace Yaos.Fs

open Yaos.Lib Prog

variable {s t u : Img} {sb : Super} {c : Cmd} {i k b : Nat}

/-! ## What is checked of the blocks -/

/-- The blocks of the image `t`, which was `s` at first, are accounted for. -/
structure Accounted (s t : Img) : Prop where
  /-- no block is in two slots -/
  once : ∀ i k i' k', t.sb.IsSlot i k → t.sb.IsSlot i' k' → t.slot i k ≠ 0 →
    t.slot i' k' = t.slot i k → i' = i ∧ k' = k
  /-- the bit of a data block says whether an inode in use refers to it -/
  bits : ∀ b, t.sb.validDataBlock b = true →
    (t.bit b = true ↔ ∃ i k, t.sb.IsSlot i k ∧ (t.inode i).type ≠ .free ∧ t.slot i k = b)
  /-- only data blocks are referred to -/
  valid : ∀ i k, t.sb.IsSlot i k → t.slot i k ≠ 0 → t.sb.validDataBlock (t.slot i k) = true
  /-- the other bits are as they were -/
  outside : ∀ b, s.sb.validDataBlock b = false → t.bit b = s.bit b
  /-- an inode has the blocks that its size requires -/
  size : ∀ i k, t.sb.IsSlot i k → (t.slot i k ≠ 0 ↔ Needs (divceil (t.inode i).size bsize) k)

theorem Blocks.live (h : Blocks s) (hslot : s.sb.IsSlot i k) (hne : s.slot i k ≠ 0) :
    (s.inode i).type ≠ .free := by
  intro htype
  have hneeds := ((h.extent i hslot.1).iff k hslot.2).mp hne
  rw [h.empty i hslot.1 (.inl htype)] at hneeds
  exact not_needs_zero hneeds

theorem Kept.accounted (h : Kept s t) : Accounted s t where
  once := h.tidy.sound.blocks.owned.inj
  bits b hb := by
    rw [h.tidy.sound.blocks.owned.bits b hb]
    constructor
    · rintro ⟨i, k, hslot, rfl⟩
      exact ⟨i, k, hslot, h.tidy.sound.blocks.live hslot (valid_ne_zero hb), rfl⟩
    · rintro ⟨i, k, hslot, -, heq⟩
      exact ⟨i, k, hslot, heq⟩
  valid := h.tidy.sound.blocks.owned.valid
  outside := h.outside
  size i k hslot := (h.tidy.sound.blocks.extent i hslot.1).iff k hslot.2

/-! ## One command -/

theorem Safe.any {m : FsM Status} {Q : Status → Img → Prop} (h : Safe k m s Q) :
    Safe k m s fun _ _ => True := h.mono (Nat.le_refl k) fun _ _ _ => trivial

/-- The condition of a command on the inodes: `do_cp` does not go to a free one, to
which it would give blocks. -/
def Cmd.Live (s : Img) : Cmd → Prop
  | .cp _ dpath => ¬ s.Dangling dpath
  | _ => True

theorem exec_safe (h : Tidy s) (c : Cmd) (hlive : c.Live s) :
    Safe (c.need s) (exec c) s fun _ _ => True := by
  cases c with
  | info path => exact (doInfo_safe h path).any
  | ls path => exact (doLs_safe h path).any
  | get path =>
    exact Safe.andThen (doGet_safe h path) fun _ _ hkept _ => Safe.pure hkept.tidy trivial
  | put path reads => exact (doPut_safe h path reads).any
  | rm path => exact (doRm_safe h path).any
  | cp spath dpath => exact (doCp_safe h spath hlive).any
  | mv spath dpath => exact (doMv_safe h spath dpath).any
  | ln spath dpath => exact (doLn_safe h spath dpath).any
  | mkdir path => exact (doMkdir_safe h path).any
  | rmdir path => exact (doRmdir_safe h path).any

/-- One command of `opfs`: it writes to the image until it returns or stops. -/
def CmdStep (s : Img) (c : Cmd) (t : Img) : Prop := t = (exec c s).2

/-- A command that finds the blocks it may need keeps the image in order,
however it ends; it ends with a status, without a free inode, or with a failed
assertion. -/
theorem CmdStep.kept (hstep : CmdStep s c t) (h : Tidy s) (hlive : c.Live s)
    (hneed : c.need s ≤ s.free) : Kept s t ∧ ∀ e, (exec c s).1 = .error e → e.Benign := by
  have hsafe := exec_safe h c hlive
  rw [Safe, Ends] at hsafe
  rw [hstep]
  split at hsafe
  next st u heq =>
    rw [heq]
    exact ⟨hsafe.1, by simp⟩
  next e u heq =>
    rw [heq]
    rcases hsafe with hlt | ⟨hkept, hbenign⟩
    · omega
    · refine ⟨hkept, fun e' he => ?_⟩
      cases he
      exact hbenign

/-! ## Every run -/

/-- **Blocks stay accounted for** in every run whose commands find the blocks
they may need and do not copy to a free inode. -/
theorem blocks_accounted {tr : List (Taken Img Cmd)} (h : Tidy s) (hrun : Trace CmdStep s tr t)
    (hok : ∀ x ∈ tr, x.label.Live x.pre ∧ x.label.need x.pre ≤ x.pre.free) :
    Accounted s t ∧ ∀ x ∈ tr, Accounted s x.pre ∧ Accounted s x.post ∧
      ∀ e, (exec x.label x.pre).1 = .error e → e.Benign := by
  obtain ⟨hend, hall⟩ := hrun.invariant (Kept s) (fun u c => c.Live u ∧ c.need u ≤ u.free)
    (fun hkept hok hstep => hkept.trans (hstep.kept hkept.tidy hok.1 hok.2).1) h.kept hok
  refine ⟨hend.accounted, fun x hx => ?_⟩
  obtain ⟨hpre, hpost⟩ := hall x hx
  have hstop := (hrun.taken x hx).kept hpre.tidy (hok x hx).1 (hok x hx).2
  exact ⟨hpre.accounted, hpost.accounted, hstop.2⟩

/-- `put f`, with one byte on standard input. -/
def putOne : Cmd := .put [102] [some [120]]

theorem blocks_accounted_put :
    Accounted (formatted (small 4)) (exec putOne (formatted (small 4))).2 :=
  (blocks_accounted (tidy_small (by decide) (by decide)) (.step rfl (.done _)) (by
    intro x hx
    rw [List.mem_singleton.mp hx]
    exact ⟨trivial, by decide +kernel⟩)).1

/-- Without a free data block `balloc` sets the bit of a block of the log before
it stops. -/
theorem full_image_loses_log_block :
    Tidy (formatted (small 1)) ∧ (formatted (small 1)).sb.validDataBlock 6 = false ∧
      (exec putOne (formatted (small 1))).1 = .error (.invalidBlock 6) ∧
      ¬ Accounted (formatted (small 1)) (exec putOne (formatted (small 1))).2 := by
  refine ⟨tidy_small (by decide) (by decide), by decide, ?_, fun hacc => ?_⟩
  · decide +kernel
  · have hbit := hacc.outside 6 (by decide)
    have hset : (exec putOne (formatted (small 1))).2.bit 6 = true := by decide +kernel
    rw [hset] at hbit
    revert hbit
    decide

end Yaos.Fs
