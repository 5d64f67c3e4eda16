import Yaos.Fs.Files
import Yaos.Lib.SetAt

/-!
# Directories as lists of entries

The bytes of a directory are its entries. An entry is written as a whole, so a
write replaces one of them or appends one.
-/

namespace Yaos.Fs

open Yaos.Lib Prog

def entry (data : List UInt8) (j : Nat) : Dirent :=
  .ofBytes ((data.drop (direntSize * j)).take direntSize)

def entries (data : List UInt8) : List Dirent :=
  (List.range (data.length / direntSize)).map (entry data)

variable {data buf : List UInt8} {j k : Nat}

@[simp] theorem length_entries : (entries data).length = data.length / direntSize := by
  simp [entries]

theorem getElem?_entries (hk : k < data.length / direntSize) : (entries data)[k]? = some (entry data k) := by
  simp [entries, hk]

theorem length_toBytes (d : Dirent) : d.toBytes.length = direntSize := by
  simp only [Dirent.toBytes, List.length_cons, List.length_append, List.length_take,
    List.length_replicate, dirsiz, direntSize]
  omega

theorem inum_ofBytes_toBytes {d : Dirent} (hi : d.inum < 2 ^ 16) :
    (Dirent.ofBytes d.toBytes).inum = d.inum := by
  simp [Dirent.ofBytes, Dirent.toBytes]
  omega

theorem name_ofBytes_toBytes {d : Dirent} (hn : 0 ∉ d.name) :
    (Dirent.ofBytes d.toBytes).name = d.name.take dirsiz := by
  have hne : ∀ c ∈ d.name.take dirsiz, decide (c ≠ 0) = true := by
    intro c hc
    rw [decide_eq_true_eq]
    exact ne_of_mem_of_not_mem (List.mem_of_mem_take hc) hn
  simp only [Dirent.ofBytes, Dirent.toBytes, List.drop_succ_cons, List.drop_zero]
  rw [List.take_of_length_le (by rw [List.length_append, List.length_take, List.length_replicate]; omega), List.takeWhile_append_of_pos hne,
    List.takeWhile_replicate]
  simp

theorem ofBytes_replicate : Dirent.ofBytes (List.replicate direntSize 0) = ⟨0, []⟩ := by
  decide

theorem entries_overwrite (hal : direntSize ∣ data.length) (hj : j ≤ data.length / direntSize)
    (hbuf : buf.length = direntSize) :
    entries (overwrite data (direntSize * j) buf) = setAt (entries data) j (.ofBytes buf) := by
  have hle : direntSize * j ≤ data.length := by
    unfold direntSize at hal hj ⊢
    omega
  have hlen : (data.take (direntSize * j)).length = direntSize * j := by simp [hle]
  apply List.ext_getElem?
  intro k
  rw [getElem?_setAt (by simpa using hj)]
  have hover : (overwrite data (direntSize * j) buf).length =
      max data.length (direntSize * j + buf.length) := length_overwrite hle
  rw [hbuf] at hover
  rcases Nat.lt_trichotomy k j with h | h | h
  · rw [if_neg (Nat.ne_of_lt h), getElem?_entries (by unfold direntSize at *; omega),
      getElem?_entries (by omega), entry, entry, overwrite, List.drop_append_of_le_length
        (by unfold direntSize at *; omega), List.take_append_of_le_length
        (by unfold direntSize at *; simp; omega), List.drop_take, List.take_take]
    congr 3
    unfold direntSize
    omega
  · subst h
    rw [if_pos rfl, getElem?_entries (by unfold direntSize at *; omega), entry, overwrite,
      List.drop_left' hlen, ← hbuf, List.take_left]
  · rw [if_neg (by omega)]
    by_cases hk : k < data.length / direntSize
    · rw [getElem?_entries (by unfold direntSize at *; omega), getElem?_entries hk, entry, entry,
        overwrite, List.drop_append, List.drop_append, hlen, hbuf,
        List.drop_of_length_le (by unfold direntSize at *; omega),
        List.drop_of_length_le (by unfold direntSize at *; omega), List.drop_drop,
        List.nil_append, List.nil_append]
      congr 4
      unfold direntSize
      omega
    · rw [List.getElem?_eq_none (by rw [length_entries, hover]; unfold direntSize at *; omega),
        List.getElem?_eq_none (by rw [length_entries]; omega)]

end Yaos.Fs
