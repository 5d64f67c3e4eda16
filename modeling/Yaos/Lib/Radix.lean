import Mathlib.Data.List.Induction
import Mathlib.Logic.Function.Basic

/-! Radix trees in word-addressed memory, as page tables are: a table is an
aligned page of `fan` words, a word holds the address of a table one level
down in its upper bits and flags in the rest. `tab` follows a path of
indices from the root, `leaf` reads a word of a table at the last level.

`Tree` says that no table is shared. Under it a write has one effect:
linking a cleared page makes one more path a table and leaves every leaf
as it was (`link`), writing a word of the last level changes that leaf
(`set`). -/
namespace Yaos.Lib.Radix

open Function

def page : Nat := 0x1000

def fan : Nat := 512

def frame (e : Nat) : Nat := e / page * page

/-- The table at the end of a path, `0` if there is none. -/
def tab (mem : Nat → Nat) (root : Nat) (p : List Nat) : Nat :=
  p.foldl (fun b i => if b = 0 then 0 else frame (mem (b + 8 * i))) root

/-- Word `i` of the table at the end of a path, `0` if there is none. -/
def leaf (mem : Nat → Nat) (root : Nat) (p : List Nat) (i : Nat) : Nat :=
  if tab mem root p = 0 then 0 else mem (tab mem root p + 8 * i)

/-- All words of the page at `a` are zero. -/
def clear (mem : Nat → Nat) (a : Nat) : Nat → Nat :=
  fun x => if a ≤ x ∧ x < a + page then 0 else mem x

/-- A path to a table, at most `d` levels below the root. -/
def IsPath (d : Nat) (p : List Nat) : Prop := p.length ≤ d ∧ ∀ i ∈ p, i < fan

/-- No two paths lead to the same table. -/
structure Tree (mem : Nat → Nat) (root d : Nat) : Prop where
  root_pos : root ≠ 0
  root_aligned : root % page = 0
  inj : ∀ {p q}, IsPath d p → IsPath d q → tab mem root p ≠ 0 →
    tab mem root p = tab mem root q → p = q

variable {mem : Nat → Nat} {root d a : Nat} {p q : List Nat} {i k v : Nat}

theorem frame_add {f : Nat} (ha : a % page = 0) (hf : f < page) : frame (a + f) = a := by
  simp only [frame, page] at *
  omega

theorem frame_mod (e : Nat) : frame e % page = 0 := Nat.mul_mod_left _ _

@[simp] theorem tab_nil : tab mem root [] = root := rfl

theorem tab_concat (p : List Nat) (i : Nat) : tab mem root (p ++ [i]) =
    if tab mem root p = 0 then 0 else frame (mem (tab mem root p + 8 * i)) := by
  rw [tab, List.foldl_append]
  rfl

theorem IsPath.init (h : IsPath d (p ++ [i])) : IsPath d p ∧ i < fan := by
  obtain ⟨hl, hi⟩ := h
  rw [List.length_append] at hl
  exact ⟨⟨by omega, fun j hj => hi j (by simp [hj])⟩, hi i (by simp)⟩

theorem IsPath.concat (h : IsPath d p) (hl : p.length < d) (hi : i < fan) :
    IsPath d (p ++ [i]) := by
  refine ⟨by rw [List.length_append]; exact hl, fun j hj => ?_⟩
  rcases List.mem_append.mp hj with hj | hj
  · exact h.2 j hj
  · rw [List.mem_singleton.mp hj]
    exact hi

theorem Tree.aligned (h : Tree mem root d) (p : List Nat) : tab mem root p % page = 0 := by
  induction p using List.reverseRecOn with
  | nil => exact h.root_aligned
  | append_singleton p i _ =>
    rw [tab_concat]
    split
    · rfl
    · exact frame_mod _

theorem slot_inj {a b i j : Nat} (ha : a % page = 0) (hb : b % page = 0) (hi : i < fan)
    (hj : j < fan) (h : a + 8 * i = b + 8 * j) : a = b ∧ i = j := by
  simp only [page, fan] at *
  omega

theorem slot_notMem {b : Nat} (ha : a % page = 0) (hb : b % page = 0) (hi : i < fan) (hab : b ≠ a) :
    ¬ (a ≤ b + 8 * i ∧ b + 8 * i < a + page) := by
  simp only [page, fan] at *
  omega

/-- **Linking** a cleared page at a vacant word: one more path has a table. -/
theorem Tree.tab_link (h : Tree mem root d) (hq : IsPath d q) (hk : k < fan)
    (hq0 : tab mem root q ≠ 0) (hv : tab mem root (q ++ [k]) = 0) (ha0 : a ≠ 0)
    (ha : a % page = 0) (hfresh : ∀ p, IsPath d p → tab mem root p ≠ a) {f : Nat} (hf : f < page)
    (hp : IsPath d p) :
    tab (update (clear mem a) (tab mem root q + 8 * k) (a + f)) root p =
      if p = q ++ [k] then a else tab mem root p := by
  induction p using List.reverseRecOn with
  | nil => simp
  | append_singleton p i ih =>
    obtain ⟨hp', hi⟩ := hp.init
    rw [tab_concat, ih hp']
    by_cases hpc : p = q ++ [k]
    · -- below the new table there is nothing, before and after
      have hne : p ++ [i] ≠ q ++ [k] := by
        intro heq
        have := congrArg List.length heq
        simp [hpc] at this
      have hslot : a + 8 * i ≠ tab mem root q + 8 * k := fun heq =>
        hfresh q hq (slot_inj ha (h.aligned q) hi hk heq).1.symm
      have hin : a ≤ a + 8 * i ∧ a + 8 * i < a + page := by
        simp only [page, fan] at *
        omega
      rw [if_pos hpc, if_neg ha0, update_of_ne hslot, clear, if_pos hin, if_neg hne,
        tab_concat, hpc, if_pos hv]
      rfl
    · rw [if_neg hpc]
      by_cases hp0 : tab mem root p = 0
      · have hne : p ++ [i] ≠ q ++ [k] := by
          intro heq
          rw [(List.append_inj' heq rfl).1] at hp0
          exact hq0 hp0
        rw [if_pos hp0, if_neg hne, tab_concat, if_pos hp0]
      · rw [if_neg hp0]
        by_cases heq : p ++ [i] = q ++ [k]
        · obtain ⟨rfl, hik⟩ := List.append_inj' heq rfl
          cases hik
          rw [if_pos rfl, update_self, frame_add ha hf]
        · have hslot : tab mem root p + 8 * i ≠ tab mem root q + 8 * k := by
            intro hs
            obtain ⟨ht, rfl⟩ := slot_inj (h.aligned p) (h.aligned q) hi hk hs
            rw [h.inj hp' hq hp0 ht] at heq
            exact heq rfl
          rw [if_neg heq, update_of_ne hslot, clear,
            if_neg (slot_notMem ha (h.aligned p) hi (hfresh p hp')), tab_concat, if_neg hp0]

theorem Tree.link (h : Tree mem root d) (hq : IsPath d q) (hk : k < fan)
    (hq0 : tab mem root q ≠ 0) (hv : tab mem root (q ++ [k]) = 0) (ha0 : a ≠ 0)
    (ha : a % page = 0) (hfresh : ∀ p, IsPath d p → tab mem root p ≠ a) {f : Nat} (hf : f < page) :
    Tree (update (clear mem a) (tab mem root q + 8 * k) (a + f)) root d := by
  have htab := fun p (hp : IsPath d p) => h.tab_link hq hk hq0 hv ha0 ha hfresh hf hp
  refine ⟨h.root_pos, h.root_aligned, fun {p r} hp hr hne heq => ?_⟩
  rw [htab p hp] at hne heq
  rw [htab r hr] at heq
  by_cases hpc : p = q ++ [k]
  · by_cases hrc : r = q ++ [k]
    · rw [hpc, hrc]
    · rw [if_pos hpc, if_neg hrc] at heq
      exact absurd heq.symm (hfresh r hr)
  · rw [if_neg hpc] at hne heq
    by_cases hrc : r = q ++ [k]
    · rw [if_pos hrc] at heq
      exact absurd heq (hfresh p hp)
    · rw [if_neg hrc] at heq
      exact h.inj hp hr hne heq

theorem Tree.leaf_link (h : Tree mem root d) (hq : IsPath d q) (hk : k < fan)
    (hq0 : tab mem root q ≠ 0) (hv : tab mem root (q ++ [k]) = 0) (ha0 : a ≠ 0)
    (ha : a % page = 0) (hfresh : ∀ p, IsPath d p → tab mem root p ≠ a) {f : Nat} (hf : f < page)
    (hlq : q.length < d) (hp : IsPath d p) (hl : p.length = d) (hi : i < fan) :
    leaf (update (clear mem a) (tab mem root q + 8 * k) (a + f)) root p i =
      leaf mem root p i := by
  rw [leaf, h.tab_link hq hk hq0 hv ha0 ha hfresh hf hp]
  by_cases hpc : p = q ++ [k]
  · have hslot : a + 8 * i ≠ tab mem root q + 8 * k := fun heq =>
      hfresh q hq (slot_inj ha (h.aligned q) hi hk heq).1.symm
    have hin : a ≤ a + 8 * i ∧ a + 8 * i < a + page := by
      simp only [page, fan] at *
      omega
    rw [if_pos hpc, if_neg ha0, update_of_ne hslot, clear, if_pos hin, leaf, hpc,
      if_pos hv]
  · rw [if_neg hpc, leaf]
    by_cases hp0 : tab mem root p = 0
    · rw [if_pos hp0, if_pos hp0]
    · have hslot : tab mem root p + 8 * i ≠ tab mem root q + 8 * k := by
        intro hs
        have := h.inj hp hq hp0 (slot_inj (h.aligned p) (h.aligned q) hi hk hs).1
        rw [this] at hl
        omega
      rw [if_neg hp0, if_neg hp0, update_of_ne hslot, clear,
        if_neg (slot_notMem ha (h.aligned p) hi (hfresh p hp))]

/-- **Writing a leaf** moves no table. -/
theorem Tree.tab_set (h : Tree mem root d) (hq : IsPath d q) (hl : q.length = d) (hk : k < fan)
    (hp : IsPath d p) :
    tab (update mem (tab mem root q + 8 * k) v) root p = tab mem root p := by
  induction p using List.reverseRecOn with
  | nil => rw [tab_nil, tab_nil]
  | append_singleton p i ih =>
    obtain ⟨hp', hi⟩ := hp.init
    rw [tab_concat, ih hp', tab_concat]
    by_cases hp0 : tab mem root p = 0
    · rw [if_pos hp0, if_pos hp0]
    · have hslot : tab mem root p + 8 * i ≠ tab mem root q + 8 * k := by
        intro hs
        -- a table on a shorter path is another one
        have hpq := h.inj hp' hq hp0 (slot_inj (h.aligned p) (h.aligned q) hi hk hs).1
        have := hp.1
        rw [List.length_append, hpq, hl, List.length_singleton] at this
        omega
      rw [if_neg hp0, if_neg hp0, update_of_ne hslot]

theorem Tree.set (h : Tree mem root d) (hq : IsPath d q) (hl : q.length = d) (hk : k < fan) :
    Tree (update mem (tab mem root q + 8 * k) v) root d := by
  refine ⟨h.root_pos, h.root_aligned, fun {p r} hp hr hne heq => ?_⟩
  rw [h.tab_set hq hl hk hp] at hne heq
  rw [h.tab_set hq hl hk hr] at heq
  exact h.inj hp hr hne heq

theorem Tree.leaf_set (h : Tree mem root d) (hq : IsPath d q) (hl : q.length = d) (hk : k < fan)
    (hq0 : tab mem root q ≠ 0) (hp : IsPath d p) (hi : i < fan) :
    leaf (update mem (tab mem root q + 8 * k) v) root p i =
      if p = q ∧ i = k then v else leaf mem root p i := by
  rw [leaf, h.tab_set hq hl hk hp]
  by_cases hpq : p = q ∧ i = k
  · obtain ⟨rfl, rfl⟩ := hpq
    rw [if_neg hq0, update_self, if_pos ⟨rfl, rfl⟩]
  · rw [if_neg hpq, leaf]
    by_cases hp0 : tab mem root p = 0
    · rw [if_pos hp0, if_pos hp0]
    · have hslot : tab mem root p + 8 * i ≠ tab mem root q + 8 * k := by
        intro hs
        obtain ⟨ht, hik⟩ := slot_inj (h.aligned p) (h.aligned q) hi hk hs
        exact hpq ⟨h.inj hp hq hp0 ht, hik⟩
      rw [if_neg hp0, if_neg hp0, update_of_ne hslot]

end Yaos.Lib.Radix
