import Yaos.Pgtable.Spec
import Yaos.Phymem.History

/-!
# Pages mapped one after the other

`alloc_vm`, `alloc_vm_stack` and `ioremap_nocache` call `map_page_p2v` for page
after page, at addresses that are one page apart, and drop what it returns. A log
keeps the page and the return code of every round. `Mapped` is what such a log
does to the entries, whichever of the loops has written it.

A round can fail only for want of a table. Where the page directories are there,
every code is `OK` (`code_of_directory`), and nothing has to be asked of the heap.
-/

namespace Yaos.Pgtable

open Yaos.Lib Yaos.Lib.Radix
open Yaos.Phymem (pageSize)

/-! ## Addresses -/

/-- An address that the hardware translates: bits 47 to 63 agree. -/
def Canonical (x : Nat) : Prop := x < 2 ^ 47 ∨ 2 ^ 64 - 2 ^ 47 ≤ x

instance (x : Nat) : Decidable (Canonical x) := inferInstanceAs (Decidable (_ ∨ _))

/-- The entry that translates an address, `0` if none does: the walk through the
tables does not look at the bits that make an address canonical. -/
def State.translation (s : State) (x : Nat) : Nat := if Canonical x then s.entry x else 0

variable {fuel flags addr p : Nat} {s t u : State} {live L M : List Range}

theorem entry_congr (h0 : s.pml4 ≠ 0) {x y : Nat} (h : vpn x = vpn y) : s.entry x = s.entry y := by
  obtain ⟨hp, hk⟩ := (path_eq_iff x y).mpr h
  rw [entry_eq_leaf s h0, entry_eq_leaf s h0, hp, hk]

theorem vpn_mod64 (x : Nat) : vpn (x % 2 ^ 64) = vpn x := by
  simp only [vpn]
  omega

theorem vpn_next (x k : Nat) :
    vpn ((x + pageSize) % 2 ^ 64 + k * pageSize) = vpn (x + (k + 1) * pageSize) := by
  simp only [vpn, pageSize]
  omega

theorem vpn_inj {x j k : Nat} (hj : j < 2 ^ 27) (hk : k < 2 ^ 27)
    (h : vpn (x + j * pageSize) = vpn (x + k * pageSize)) : j = k := by
  simp only [vpn, pageSize] at h
  omega

theorem vpn_page {a x : Nat} (hal : a % pageSize = 0) (h₁ : a ≤ x) (h₂ : x < a + pageSize) :
    vpn x = vpn a := by
  simp only [vpn, pageSize] at *
  omega

theorem page_aligned {a : Nat} (h : a % pageSize = 0) (j : Nat) :
    (a + j * pageSize) % pageSize = 0 := by
  rw [Nat.add_mul_mod_self_right]
  exact h

theorem canonical_inj {x y : Nat} (hx : Canonical x) (hy : Canonical y) (hx' : x < 2 ^ 64)
    (hy' : y < 2 ^ 64) (h : vpn x = vpn y) : x / pageSize = y / pageSize := by
  simp only [Canonical, vpn, pageSize] at *
  omega

theorem canonical_page {a x : Nat} (ha : Canonical a) (hal : a % pageSize = 0) (h₁ : a ≤ x)
    (h₂ : x < a + pageSize) : Canonical x := by
  simp only [Canonical, pageSize] at *
  omega

theorem exists_canonical (x : Nat) : ∃ y < 2 ^ 64, Canonical y ∧ vpn y = vpn x := by
  have hlt : vpn x < 2 ^ 27 := Nat.mod_lt _ (by decide)
  by_cases hlow : vpn x < 2 ^ 26
  · refine ⟨vpn x * 2 ^ 21, by omega, .inl (by omega), ?_⟩
    simp only [vpn] at *
    omega
  · refine ⟨2 ^ 64 - 2 ^ 48 + vpn x * 2 ^ 21, by omega, .inr (by omega), ?_⟩
    simp only [vpn] at *
    omega

theorem canonical_few {n : Nat} (hal : p % pageSize = 0) (hend : p + n * pageSize ≤ 2 ^ 64)
    (h : ∀ k < n, Canonical (p + k * pageSize)) : n ≤ 2 ^ 26 := by
  simp only [Canonical, pageSize] at *
  by_contra hgt
  by_cases hlow : p < 2 ^ 47
  · have := h ((2 ^ 47 - p) / 2097152) (by omega)
    omega
  · have := h 0 (by omega)
    omega

/-! ## The log of a loop -/

/-- A page, and what `map_page_p2v` returned for it. -/
structure Mapping where
  page : Nat
  code : Nat

/-- The effect of a log of maps with the same flags, from the address `addr` on: a
map that failed has left its page, which had no entry before, without one. The
addresses of `2 ^ 27` pages are distinct modulo the 48 bits that are translated. -/
structure Mapped (flags : Nat) (s t : State) (addr : Nat) (log : List Mapping) : Prop where
  miss : ∀ x, (∀ k < log.length, vpn x ≠ vpn (addr + k * pageSize)) → t.entry x = s.entry x
  hit : log.length ≤ 2 ^ 27 → ∀ x k m, log[k]? = some m → vpn x = vpn (addr + k * pageSize) →
    t.entry x = if m.code = codeOk then m.page ||| flags else 0
  vacant : log.length ≤ 2 ^ 27 → ∀ x k m, log[k]? = some m → vpn x = vpn (addr + k * pageSize) →
    m.code ≠ codeOk → s.entry x = 0

theorem Mapped.nil (flags : Nat) (s : State) (addr : Nat) : Mapped flags s s addr [] :=
  ⟨fun _ _ => rfl, by simp, by simp⟩

theorem singleton_getElem? {m x : Mapping} {k : Nat} (h : [m][k]? = some x) : k = 0 ∧ m = x := by
  cases k with
  | zero => exact ⟨rfl, by simpa using h⟩
  | succ k => simp at h

/-- **One round.** -/
theorem mapped_one {page code : Nat} (hi : Inv s live L M)
    (hm : mapPageP2v fuel s page addr flags = .ok (code, t)) :
    Mapped flags s t addr [⟨page, code⟩] := by
  obtain ⟨-, -, -, -, -, -, hcase⟩ := mapPageP2v_spec hi hm
  refine ⟨fun x hx => ?_, fun _ x k m hk hx => ?_, fun _ x k m hk hx hcode => ?_⟩
  · have hne : vpn x ≠ vpn addr := by simpa using hx 0 (by simp)
    rcases hcase with ⟨-, hentry⟩ | ⟨-, -, hentry⟩
    · rw [hentry, if_neg hne]
    · exact hentry x
  · obtain ⟨rfl, rfl⟩ := singleton_getElem? hk
    rw [Nat.zero_mul, Nat.add_zero] at hx
    rcases hcase with ⟨rfl, hentry⟩ | ⟨rfl, hzero, hentry⟩
    · rw [hentry, if_pos hx, if_pos rfl]
    · rw [hentry, entry_congr hi.tree.root_pos hx, hzero]
      rfl
  · obtain ⟨rfl, rfl⟩ := singleton_getElem? hk
    rw [Nat.zero_mul, Nat.add_zero] at hx
    rcases hcase with ⟨rfl, -⟩ | ⟨-, hzero, -⟩
    · exact absurd rfl hcode
    · rw [entry_congr hi.tree.root_pos hx, hzero]

/-- **Rounds in sequence**: a later round is at another address. -/
theorem Mapped.cons {m : Mapping} {log : List Mapping} (h : Mapped flags s u addr [m])
    (h' : Mapped flags u t ((addr + pageSize) % 2 ^ 64) log) : Mapped flags s t addr (m :: log) where
  miss x hx := by
    rw [h'.miss x fun k hk => ?_, h.miss x fun k hk => ?_]
    · obtain rfl : k = 0 := by simpa using hk
      exact hx 0 (by simp)
    · rw [vpn_next]
      exact hx (k + 1) (by simpa using hk)
  hit hlen x k y hk hx := by
    rw [List.length_cons] at hlen
    cases k with
    | zero =>
      obtain rfl : m = y := by simpa using hk
      rw [h'.miss x fun k hk => ?_]
      · exact h.hit (by simp) x 0 m rfl hx
      · rw [vpn_next, hx]
        intro heq
        have := vpn_inj (by omega) (by omega) heq
        omega
    | succ k =>
      refine h'.hit (by omega) x k y (by simpa using hk) ?_
      rw [vpn_next]
      exact hx
  vacant hlen x k y hk hx hcode := by
    rw [List.length_cons] at hlen
    cases k with
    | zero =>
      obtain rfl : m = y := by simpa using hk
      exact h.vacant (by simp) x 0 m rfl hx hcode
    | succ k =>
      have hklt : k < log.length := (List.getElem?_eq_some_iff.mp (by simpa using hk)).1
      rw [← h.miss x fun j hj => ?_]
      · refine h'.vacant (by omega) x k y (by simpa using hk) ?_ hcode
        rw [vpn_next]
        exact hx
      · obtain rfl : j = 0 := by simpa using hj
        rw [hx]
        intro heq
        have := vpn_inj (by omega) (by omega) heq
        omega

/-! ## Directories that are there -/

/-- The page directory of an address is there, so that a map needs nothing of the heap. -/
def State.Directory (s : State) (x : Nat) : Prop := tab s.mem s.pml4 (path x) ≠ 0

instance (s : State) (x : Nat) : Decidable (s.Directory x) := inferInstanceAs (Decidable (_ ≠ _))

theorem directory_congr {x y : Nat} (h : vpn x = vpn y) : s.Directory x ↔ s.Directory y := by
  rw [State.Directory, State.Directory, ((path_eq_iff x y).mpr h).1]

theorem directory_kept {page code x : Nat} (hi : Inv s live L M)
    (hm : mapPageP2v fuel s page addr flags = .ok (code, t)) (hx : s.Directory x) :
    t.Directory x := by
  obtain ⟨-, -, -, -, -, -, htabs, -⟩ := mapPageP2v_tables hi hm
  exact (htabs _ (isPath_path x) hx).trans_ne hx

theorem code_of_directory {page code : Nat} (h0 : s.pml4 ≠ 0) (hd : s.Directory addr)
    (hm : mapPageP2v fuel s page addr flags = .ok (code, t)) : code = codeOk := by
  have hpage : page % 0x1000 = 0 ∧ frame flags = 0 := by
    obtain ⟨_, hal, hm⟩ := bind_eq_ok.mp hm
    obtain ⟨_, hflag, -⟩ := bind_eq_ok.mp hm
    exact ⟨of_decide_eq_true (check_eq_ok.mp hal), of_decide_eq_true (check_eq_ok.mp hflag)⟩
  rw [mapPageP2v_present h0 hpage.1 hpage.2 hd] at hm
  cases hm
  rfl

/-! ## A machine -/

theorem phys_inv {n k : Nat} {phys : Phymem.State}
    (h : Phymem.freePhyPages (Phymem.initPhyMem (64 * pageSize)) ((n + 1) * pageSize)
      (k * pageSize) = .ok phys) : Phymem.Inv phys := by
  rcases Phymem.freePhyPages_cases (Phymem.inv_init _) h with ⟨h0, -⟩ | ⟨-, -, -, hfreed⟩
  · rw [Nat.mul_eq_zero] at h0
    rcases h0 with h0 | h0 <;> cases h0
  · exact hfreed.inv

/-- A 128M machine with the pages 5, 6 and 7 free. -/
def threePages : Phymem.State :=
  { Phymem.initPhyMem (64 * pageSize) with pgbits := [0xe0#64, 0#64], pages := 3 }

/-- The tables of `oneMapped` on it, with an empty heap. -/
def room : State := ⟨oneMapped, 0x1000, Kheap.initKheap threePages⟩

theorem threePages_inv : Phymem.Inv threePages := phys_inv (n := 4) (k := 3) (by decide)

theorem room_inv : Inv room [⟨0x1000, page⟩, ⟨0x2000, page⟩, ⟨0x3000, page⟩] [] [] :=
  oneMapped_inv threePages_inv

end Yaos.Pgtable
