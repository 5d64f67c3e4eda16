import Yaos.Pgtable.Mapping
import Yaos.Vm.Model

/-!
# Pages taken and mapped one after the other

`Maps` is what the loop of `alloc_vm` does as long as the bitmap has a
page: at consecutive addresses, a page is taken and mapped, and the return
code of the map is dropped. The log keeps both. `MapsTo` says what that
does to the bitmap and, as `Mapped`, to the entries.
-/

namespace Yaos.Vm

open Yaos.Lib Yaos.Pgtable
open Yaos.Phymem (pageSize)

/-- The loop from an address on, with the log of its rounds. -/
inductive Maps (fuel : Nat) : Pgtable.State → Nat → List Mapping → Pgtable.State → Prop where
  | done (s : Pgtable.State) (addr : Nat) : Maps fuel s addr [] s
  | step {s s₁ t : Pgtable.State} {addr page code : Nat} {phys : Phymem.State}
      {log : List Mapping} :
      Phymem.allocPhyPage fuel s.heap.phys = .ok (page, phys) → page ≠ 0 →
      mapPageP2vRw fuel (s.setPhys phys) page addr = .ok (code, s₁) →
      Maps fuel s₁ ((addr + pageSize) % 2 ^ 64) log t →
      Maps fuel s addr (⟨page, code⟩ :: log) t

/-- The flags of `map_page_p2v_rw`. -/
def rwFlags : Nat := pteP ||| pteW ||| ptePS

variable {fuel addr : Nat} {s t u : Pgtable.State} {log log' : List Mapping}

theorem Maps.split (h : Maps fuel s addr (log ++ log') t) (ha : addr < 2 ^ 64) :
    ∃ u, Maps fuel s addr log u ∧ Maps fuel u ((addr + log.length * pageSize) % 2 ^ 64) log' t := by
  induction log generalizing s addr with
  | nil =>
    refine ⟨s, .done s addr, ?_⟩
    rw [List.length_nil, Nat.zero_mul, Nat.add_zero, Nat.mod_eq_of_lt ha]
    exact h
  | cons m log ih =>
    cases h with
    | step hp h0 hm hr =>
      obtain ⟨u, h₁, h₂⟩ := ih hr (Nat.mod_lt _ (by decide))
      refine ⟨u, .step hp h0 hm h₁, ?_⟩
      convert h₂ using 1
      simp only [List.length_cons]
      rw [Nat.mod_add_mod]
      congr 1
      rw [Nat.succ_mul]
      omega

theorem Maps.unique {u' : Pgtable.State} (h : Maps fuel s addr log u)
    (h' : Maps fuel s addr log' u') (hl : log.length = log'.length) : log = log' ∧ u = u' := by
  induction h generalizing log' with
  | done s addr =>
    obtain rfl : log' = [] := List.length_eq_zero_iff.mp hl.symm
    cases h'
    exact ⟨rfl, rfl⟩
  | step hp _ hm _ ih =>
    cases h' with
    | done => simp at hl
    | step hp' _ hm' hr' =>
      cases hp.symm.trans hp'
      cases hm.symm.trans hm'
      obtain ⟨rfl, rfl⟩ := ih hr' (by simpa using hl)
      exact ⟨rfl, rfl⟩

/-! ## What the loop does -/

def TakenFrom (s t : Phymem.State) (page : Nat) : Prop :=
  ∃ i, page = pageSize * i ∧ s.bit i = true ∧ t.bit i = false

/-- The effect of the loop: the entries are those of its log, and the pages of the
log, all distinct, are no longer free. -/
structure MapsTo (s t : Pgtable.State) (addr : Nat) (log : List Mapping) : Prop extends
    Mapped rwFlags s t addr log where
  pml4 : t.pml4 = s.pml4
  bits : ∀ i, t.heap.phys.bit i = true → s.heap.phys.bit i = true
  pages : ∀ m ∈ log, TakenFrom s.heap.phys t.heap.phys m.page
  nodup : (log.map Mapping.page).Nodup
  codes : ∀ m ∈ log, m.code = codeOk ∨ m.code = eNoMem

theorem round_spec {live L M : List Range} {page code : Nat} {phys : Phymem.State}
    (hi : Pgtable.Inv s live L M) (hp : Phymem.allocPhyPage fuel s.heap.phys = .ok (page, phys))
    (h0 : page ≠ 0) (hm : mapPageP2vRw fuel (s.setPhys phys) page addr = .ok (code, t)) :
    (∃ live' L', Pgtable.Inv t live' L' M ∧ ∀ x ∈ live, x ∈ live') ∧
      MapsTo s t addr [⟨page, code⟩] := by
  have hi' : Pgtable.Inv (s.setPhys phys) live L M := ⟨hi.heap.allocPage hp, hi.tree, hi.owned⟩
  obtain ⟨live', L', hinv, hroot, hsub, hbits, hcase⟩ := mapPageP2v_spec hi' hm
  obtain ⟨i, -, rfl, hbit, hclr⟩ :=
    (Phymem.Inv.alloc_page hi.heap.phys hp).resolve_left fun h => h0 h.1
  have hless : ∀ j, phys.bit j = true → s.heap.phys.bit j = true := by
    intro j hj
    rw [hclr] at hj
    split at hj
    · cases hj
    · exact hj
  have hgone : t.heap.phys.bit i = false := by
    by_contra hne
    have := hbits i (by simpa using hne)
    change phys.bit i = true at this
    rw [hclr, if_pos rfl] at this
    cases this
  have hone : Mapped rwFlags (s.setPhys phys) t addr [⟨_, code⟩] := mapped_one hi' hm
  refine ⟨⟨live', L', hinv, hsub⟩, ⟨hone.miss, hone.hit, hone.vacant⟩, hroot,
    fun j hj => hless j (hbits j hj), ?_, by simp, ?_⟩
  · intro m hm
    rw [List.mem_singleton.mp hm]
    exact ⟨i, rfl, hbit, hgone⟩
  · intro m hm
    rw [List.mem_singleton.mp hm]
    exact hcase.imp And.left And.left

theorem MapsTo.nil (s : Pgtable.State) (addr : Nat) : MapsTo s s addr [] :=
  ⟨.nil rwFlags s addr, rfl, fun _ h => h, by simp, by simp, by simp⟩

/-- Rounds in sequence: the pages are distinct since each was free when it was taken. -/
theorem MapsTo.cons {m : Mapping} (h : MapsTo s u addr [m])
    (h' : MapsTo u t ((addr + pageSize) % 2 ^ 64) log) : MapsTo s t addr (m :: log) where
  toMapped := h.toMapped.cons h'.toMapped
  pml4 := h'.pml4.trans h.pml4
  bits i hi := h.bits i (h'.bits i hi)
  pages x hx := by
    rcases List.mem_cons.mp hx with rfl | hx
    · obtain ⟨i, hpage, hbit, hgone⟩ := h.pages _ List.mem_cons_self
      refine ⟨i, hpage, hbit, ?_⟩
      by_contra hne
      have := h'.bits i (by simpa using hne)
      rw [hgone] at this
      cases this
    · obtain ⟨i, hpage, hbit, hgone⟩ := h'.pages x hx
      exact ⟨i, hpage, h.bits i hbit, hgone⟩
  nodup := by
    rw [List.map_cons, List.nodup_cons]
    refine ⟨fun hmem => ?_, h'.nodup⟩
    obtain ⟨x, hx, hxm⟩ := List.mem_map.mp hmem
    obtain ⟨i, hpage, -, hgone⟩ := h.pages m List.mem_cons_self
    obtain ⟨j, hpage', hbit, -⟩ := h'.pages x hx
    have hij : i = j := by
      rw [hpage, hpage'] at hxm
      exact Nat.eq_of_mul_eq_mul_left (by decide) hxm.symm
    rw [← hij, hgone] at hbit
    cases hbit
  codes x hx := by
    rcases List.mem_cons.mp hx with rfl | hx
    · exact h.codes _ List.mem_cons_self
    · exact h'.codes x hx

/-- **The loop** keeps heap and tables in order, and does what its log says. -/
theorem Maps.mapsTo {live L M : List Range} (h : Maps fuel s addr log t)
    (hi : Pgtable.Inv s live L M) :
    (∃ live' L', Pgtable.Inv t live' L' M ∧ ∀ x ∈ live, x ∈ live') ∧ MapsTo s t addr log := by
  induction h generalizing live L with
  | done s addr => exact ⟨⟨live, L, hi, fun _ hx => hx⟩, .nil s addr⟩
  | step hp h0 hm _ ih =>
    obtain ⟨⟨live₁, L₁, hi₁, hsub₁⟩, hone⟩ := round_spec hi hp h0 hm
    obtain ⟨⟨live₂, L₂, hi₂, hsub₂⟩, hrest⟩ := ih hi₁
    exact ⟨⟨live₂, L₂, hi₂, fun x hx => hsub₂ x (hsub₁ x hx)⟩, hone.cons hrest⟩

/-- **Closed form**: where the directories of its addresses are there, no round of the
loop fails, whatever the heap has left. -/
theorem Maps.codes_of_directories {live L M : List Range} (h : Maps fuel s addr log t)
    (hi : Pgtable.Inv s live L M) (hd : ∀ k < log.length, s.Directory (addr + k * pageSize)) :
    ∀ m ∈ log, m.code = codeOk := by
  induction h generalizing live L with
  | done s addr => simp
  | @step s s₁ t addr page code phys log hp h0 hm _ ih =>
    obtain ⟨⟨live₁, L₁, hi₁, -⟩, -⟩ := round_spec hi hp h0 hm
    have hi' : Pgtable.Inv (s.setPhys phys) live L M := ⟨hi.heap.allocPage hp, hi.tree, hi.owned⟩
    have hfirst : s.Directory addr := by simpa using hd 0 (by simp)
    refine List.forall_mem_cons.mpr ⟨?_, ih hi₁ fun k hk => ?_⟩
    · exact code_of_directory (s := s.setPhys phys) hi.tree.root_pos hfirst hm
    · have hnext : (s.setPhys phys).Directory (addr + (k + 1) * pageSize) :=
        hd (k + 1) (by simpa using hk)
      exact (directory_congr (vpn_next addr k)).mpr (directory_kept hi' hm hnext)

end Yaos.Vm
