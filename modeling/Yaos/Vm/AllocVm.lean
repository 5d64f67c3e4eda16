import Yaos.Vm.Maps

/-!
# What `alloc_vm` maps

`alloc_linear` reserves `size` rounded up to whole pages, but the loop of
`alloc_vm` runs while `phsize <= size`: for a whole number of pages it
takes and maps one page more than was reserved, over whatever was mapped
behind the range. The other two ways to go wrong are a map that fails for
want of a table (its return code is dropped) and a range that leaves the
canonical addresses.
-/

namespace Yaos.Vm

open Yaos.Lib Yaos.Holes Yaos.Pgtable Yaos.Lib.Radix
open Yaos.Phymem (pageSize)

/-- The whole pages that `size` bytes need. -/
def pages (size : Nat) : Nat := (size + (pageSize - 1)) / pageSize

/-- The invariant of the linear holes, the heap and the tables. -/
structure Inv (s : State) (live H M L : List Range) : Prop where
  pg : Pgtable.Inv s.pg live H M
  linear : s.linear.Reps L
  whole : ∀ q ∈ L, q.addr % pageSize = 0 ∧ q.addr + q.size ≤ 2 ^ 64

/-- `[p, p + size)`, rounded up to whole pages, was reserved and mapped to
pages taken from the bitmap, and nothing else was remapped. -/
structure Exact (s t : State) (p size : Nat) : Prop where
  reserved : ∃ L L', s.linear.Reps L ∧ t.linear.Reps L' ∧
    ∀ b, cover L b = Range.has ⟨p, pages size * pageSize⟩ b + cover L' b
  mapped : ∃ pgs : List Nat, pgs.length = pages size ∧ pgs.Nodup ∧
    (∀ pg ∈ pgs, TakenFrom s.phys t.phys pg) ∧
    ∀ k pg, pgs[k]? = some pg → ∀ x, p + k * pageSize ≤ x → x < p + (k + 1) * pageSize →
      t.pg.translation x = pg ||| rwFlags
  frame : ∀ x < 2 ^ 64, x ∉ (⟨p, pages size * pageSize⟩ : Range) →
    t.pg.translation x = s.pg.translation x

/-- Taking a page and mapping it at `addr` has no effect on the entries:
its table cannot be had, or the entry is already the one that is written. -/
def Harmless (fuel : Nat) (s : Pgtable.State) (addr : Nat) : Prop :=
  ∀ page phys code t, Phymem.allocPhyPage fuel s.heap.phys = .ok (page, phys) →
    mapPageP2vRw fuel (s.setPhys phys) page addr = .ok (code, t) → code = codeOk →
    s.entry addr = page ||| rwFlags

/-- When `alloc_vm` is exact, in terms of the state it is called in: the
first hole that fits lies in canonical addresses, the heap supplies every
table the range needs, and the page behind the range is not mapped or that
has no effect. -/
def Clean (fuel : Nat) (s : State) (size : Nat) : Prop :=
  ∃ L a L' log u, s.linear.Reps L ∧ cutFirst 0 (roundPage size) L = some (a, L') ∧
    (∀ k < pages size, Canonical (a + k * pageSize)) ∧
    Maps fuel s.pg a log u ∧ log.length = pages size ∧ (∀ m ∈ log, m.code = codeOk) ∧
    (size % pageSize = 0 → Harmless fuel u ((a + pages size * pageSize) % 2 ^ 64))

/-! ## The calls -/

variable {fuel size p : Nat} {s t : State}

/-- A round of the loop: it is the last, there is no page, or a page is
mapped and the next round follows. -/
theorem allocVmLoop_round {n addr phsize : Nat} {all : Bool}
    (h : allocVmLoop fuel size (n + 1) s addr phsize = .ok (all, t)) :
    (¬ phsize ≤ size ∧ all = true ∧ t = s) ∨
    (∃ phys, Phymem.allocPhyPage fuel s.phys = .ok (0, phys) ∧ all = false ∧
      (phsize = 0 ∧ t = s.setPhys phys ∨
        ∃ s₁, freeVmPage addr phsize fuel (s.setPhys phys) 0 = .ok s₁ ∧
          freeLinear s₁ addr size = .ok t)) ∨
    ∃ pg phys code u, phsize ≤ size ∧ Phymem.allocPhyPage fuel s.phys = .ok (pg, phys) ∧ pg ≠ 0 ∧
      mapPageP2vRw fuel (s.setPhys phys).pg pg addr = .ok (code, u) ∧
      allocVmLoop fuel size n { s with pg := u } ((addr + pageSize) % 2 ^ 64)
        ((phsize + pageSize) % 2 ^ 64) = .ok (all, t) := by
  rw [allocVmLoop] at h
  split at h
  next hin =>
    obtain ⟨⟨pg, phys⟩, hpage, h⟩ := bind_eq_ok.mp h
    dsimp only at h
    split at h
    next hpg =>
      subst hpg
      refine .inr (.inl ⟨phys, hpage, ?_⟩)
      split at h
      next =>
        obtain ⟨s₁, hfree, h⟩ := bind_eq_ok.mp h
        obtain ⟨s₂, hback, h⟩ := bind_eq_ok.mp h
        cases h
        exact ⟨rfl, .inr ⟨s₁, hfree, hback⟩⟩
      next hph =>
        cases h
        exact ⟨rfl, .inl ⟨not_not.mp hph, rfl⟩⟩
    next hpg =>
      obtain ⟨⟨code, u⟩, hmap, h⟩ := bind_eq_ok.mp h
      exact .inr (.inr ⟨pg, phys, code, u, hin, hpage, hpg, hmap, h⟩)
  next hout =>
    cases h
    exact .inl ⟨hout, rfl, rfl⟩

/-- A loop that counts to the end of the address space does not end. -/
theorem allocVmLoop_lt {n addr phsize : Nat}
    (h : allocVmLoop fuel size n s addr phsize = .ok (true, t)) (hal : phsize % pageSize = 0)
    (hlt : phsize < 2 ^ 64) : size < 2 ^ 64 - pageSize := by
  by_contra hge
  simp only [pageSize] at hal hge
  induction n generalizing s addr phsize with
  | zero => cases h
  | succ n ih =>
    rcases allocVmLoop_round h with
      ⟨hout, -, -⟩ | ⟨_, -, hall, -⟩ | ⟨pg, phys, code, u, -, -, -, -, h⟩
    · omega
    · cases hall
    · refine ih h ?_ (Nat.mod_lt _ (by decide))
      simp only [pageSize]
      omega

theorem allocVmLoop_cases {n addr phsize : Nat}
    (h : allocVmLoop fuel size n s addr phsize = .ok (true, t)) (hal : phsize % pageSize = 0)
    (hsize : size < 2 ^ 64 - pageSize) (hle : phsize ≤ (size / pageSize + 1) * pageSize) :
    ∃ log, Maps fuel s.pg addr log t.pg ∧ t.linear = s.linear ∧
      log.length * pageSize + phsize = (size / pageSize + 1) * pageSize := by
  induction n generalizing s addr phsize with
  | zero => cases h
  | succ n ih =>
    rcases allocVmLoop_round h with
      ⟨hout, -, rfl⟩ | ⟨_, -, hall, -⟩ | ⟨pg, phys, code, u, hin, hpage, hpg, hmap, h⟩
    · refine ⟨[], .done _ _, rfl, ?_⟩
      simp only [pageSize] at hal hsize hle hout ⊢
      simp only [List.length_nil]
      omega
    · cases hall
    · simp only [pageSize] at hal hsize hle hin
      have hnext : (phsize + pageSize) % 2 ^ 64 = phsize + pageSize := by
        simp only [pageSize]
        omega
      rw [hnext] at h
      obtain ⟨log, hmaps, hlin, hlen⟩ := ih h (by simp only [pageSize]; omega)
        (by simp only [pageSize]; omega)
      refine ⟨⟨pg, code⟩ :: log, .step hpage hpg hmap hmaps, hlin, ?_⟩
      rw [List.length_cons, Nat.succ_mul]
      omega

theorem allocVmLoop_log {n addr : Nat} (h : allocVmLoop fuel size n s addr 0 = .ok (true, t)) :
    size < 2 ^ 64 - pageSize ∧ t.linear = s.linear ∧
      ∃ log, Maps fuel s.pg addr log t.pg ∧ log.length = size / pageSize + 1 := by
  have hsize := allocVmLoop_lt h (by decide) (by decide)
  obtain ⟨log, hmaps, hlin, hlen⟩ := allocVmLoop_cases h (by decide) hsize (Nat.zero_le _)
  rw [Nat.add_zero] at hlen
  exact ⟨hsize, hlin, log, hmaps, Nat.eq_of_mul_eq_mul_right (by decide : 0 < pageSize) hlen⟩

theorem bits_of_none {phys phys' : Phymem.State} (hi : Phymem.Inv phys)
    (h : Phymem.allocPhyPage fuel phys = .ok (0, phys')) (i : Nat) : phys'.bit i = phys.bit i := by
  rcases Phymem.Inv.alloc_page hi h with ⟨-, hsame⟩ | ⟨j, hj, h0, -⟩
  · exact hsame i
  · exact absurd h0.symm (Nat.mul_ne_zero (by decide) hj)

theorem lock_eq (h : s.lock = .ok t) : t = { s with locked := true } := by
  rw [State.lock] at h
  split at h
  · cases h
  · cases h
    rfl

/-- `alloc_linear` cuts a block off a hole, or returns 0. -/
theorem allocLinear_spec {L : List Range} (hL : s.linear.Reps L)
    (h : allocLinear s size = .ok (p, t)) :
    t.pg = s.pg ∧ ∃ L', t.linear.Reps L' ∧
      (p = 0 ∧ L' = L ∨ cutFirst 0 (roundPage size) L = some (p, L')) := by
  rw [allocLinear] at h
  obtain ⟨s₁, hlock, h⟩ := bind_eq_ok.mp h
  obtain rfl := lock_eq hlock
  obtain ⟨found, hfit, h⟩ := bind_eq_ok.mp h
  cases found with
  | none =>
    cases h
    exact ⟨rfl, L, hL, .inl ⟨rfl, rfl⟩⟩
  | some q =>
    obtain ⟨⟨pret, h'⟩, htake, h⟩ := bind_eq_ok.mp h
    cases h
    obtain ⟨L', hcut, hreps⟩ := hL.take hfit htake
    exact ⟨rfl, L', hreps, .inr hcut⟩

theorem allocLinear_cases {L : List Range} (hL : s.linear.Reps L)
    (h : allocLinear s size = .ok (p, t)) (hp : p ≠ 0) :
    t.pg = s.pg ∧ ∃ L', cutFirst 0 (roundPage size) L = some (p, L') ∧ t.linear.Reps L' := by
  obtain ⟨hpg, L', hreps, ⟨h0, -⟩ | hcut⟩ := allocLinear_spec hL h
  · exact absurd h0 hp
  · exact ⟨hpg, L', hcut, hreps⟩

theorem freeVmPage_linear {addr n phsize : Nat} (h : freeVmPage addr size n s phsize = .ok t) :
    t.linear = s.linear := by
  induction n generalizing s phsize with
  | zero => cases h
  | succ n ih =>
    rw [freeVmPage] at h
    split at h
    · dsimp only at h
      split at h
      · cases h
      · obtain ⟨phys, -, h⟩ := bind_eq_ok.mp h
        exact (ih h : t.linear = (s.setPhys phys).linear)
    · cases h
      rfl

theorem freeLinear_cases {addr : Nat} {L : List Range} (hL : s.linear.Reps L)
    (h : freeLinear s addr size = .ok t) :
    size % pageSize = 0 ∧ t.linear.Reps (insertRange ⟨addr, size⟩ L) ∧ addr % pageSize = 0 ∧
      t.pg = s.pg := by
  rw [freeLinear] at h
  obtain ⟨_, hc, h⟩ := bind_eq_ok.mp h
  split at h
  · cases h
  · obtain ⟨s₁, hlock, h⟩ := bind_eq_ok.mp h
    obtain rfl := lock_eq hlock
    obtain ⟨h', hadd, h⟩ := bind_eq_ok.mp h
    cases h
    rw [check_eq_ok, Bool.and_eq_true] at hc
    exact ⟨of_decide_eq_true hc.2, hL.addSorted hadd, of_decide_eq_true hc.1, rfl⟩

theorem pages_whole (h : size % pageSize = 0) : pages size = size / pageSize := by
  simp only [pages, pageSize] at *
  omega

theorem pages_rest (h : size % pageSize ≠ 0) : pages size = size / pageSize + 1 := by
  simp only [pages, pageSize] at *
  omega

theorem pages_mul (h : size % pageSize = 0) : pages size * pageSize = size := by
  rw [pages_whole h]
  exact Nat.div_mul_cancel (Nat.dvd_of_mod_eq_zero h)

theorem roundPage_eq (h : size < 2 ^ 64 - pageSize) : roundPage size = pages size * pageSize := by
  rw [roundPage, pages]
  split
  · simp only [pageSize] at *
    omega
  · simp only [pageSize] at *
    omega

theorem Inv.bounds {live H M L L' : List Range} (hi : Inv s live H M L)
    (hsize : size < 2 ^ 64 - pageSize) (h : cutFirst 0 (roundPage size) L = some (p, L')) :
    p % pageSize = 0 ∧ p + pages size * pageSize ≤ 2 ^ 64 := by
  obtain ⟨A, q, B, rfl, -, hle, rfl, -⟩ := cutFirst_some h
  obtain ⟨hal, hend⟩ := hi.whole q (by simp)
  rw [roundPage_eq hsize] at hle
  exact ⟨hal, by omega⟩

/-- **A call that returns memory**: the range is reserved, its pages are
mapped (`log`), and for a whole number of pages one more round follows. -/
theorem allocVm_cases {live H M L : List Range} (hi : Inv s live H M L) (hpos : 0 < size)
    (h : allocVm fuel s size = .ok (p, t)) (hp : p ≠ 0) :
    size < 2 ^ 64 - pageSize ∧ ∃ L' log u, cutFirst 0 (roundPage size) L = some (p, L') ∧
      t.linear.Reps L' ∧ Maps fuel s.pg p log u ∧ log.length = pages size ∧
      (size % pageSize ≠ 0 ∧ t.pg = u ∨
        size % pageSize = 0 ∧ ∃ m, Maps fuel u ((p + pages size * pageSize) % 2 ^ 64) [m] t.pg) := by
  rw [allocVm] at h
  obtain ⟨⟨p', s₁⟩, hlin, h⟩ := bind_eq_ok.mp h
  dsimp only at h
  split at h
  next =>
    cases h
    exact absurd rfl hp
  next hp' =>
    obtain ⟨⟨all, s₂⟩, hloop, h⟩ := bind_eq_ok.mp h
    cases all with
    | false =>
      cases h
      exact absurd rfl hp
    | true =>
      cases h
      rw [if_pos rfl] at hp ⊢
      obtain ⟨hpg, L', hcut, hreps⟩ := allocLinear_cases hi.linear hlin hp
      obtain ⟨hsize, hlin', log, hmaps, hcount⟩ := allocVmLoop_log hloop
      rw [hpg] at hmaps
      rw [← hlin'] at hreps
      refine ⟨hsize, L', ?_⟩
      by_cases hmod : size % pageSize = 0
      · -- one round more than there are pages
        have hne : log ≠ [] := by
          rintro rfl
          exact absurd hcount (Nat.succ_ne_zero _).symm
        have hlen' : log.dropLast.length = pages size := by
          rw [List.length_dropLast, hcount, pages_whole hmod]
          rfl
        have hbounds := hi.bounds hsize hcut
        rw [pages_mul hmod] at hbounds
        rw [← List.dropLast_append_getLast hne] at hmaps
        obtain ⟨u, hu, hlast⟩ := hmaps.split (by omega)
        rw [hlen'] at hlast
        exact ⟨log.dropLast, u, hcut, hreps, hu, hlen', .inr ⟨hmod, _, hlast⟩⟩
      · refine ⟨log, s₂.pg, hcut, hreps, hmaps, ?_, .inl ⟨hmod, rfl⟩⟩
        rw [hcount, pages_rest hmod]

theorem or_rwFlags_ne_zero (pg : Nat) : pg ||| rwFlags ≠ 0 := by
  intro h
  have := (Nat.or_eq_zero_iff.mp h).2
  revert this
  decide

/-! ## Exactness -/

theorem MapsTo.frame {log : List Mapping} {u : Pgtable.State} {n x : Nat}
    (h : MapsTo s.pg u p log) (hlen : log.length = n) (hal : p % pageSize = 0)
    (hend : p + n * pageSize ≤ 2 ^ 64) (hcan : ∀ k < n, Canonical (p + k * pageSize))
    (hx : Canonical x) (hx' : x < 2 ^ 64) (hout : x ∉ (⟨p, n * pageSize⟩ : Range)) :
    u.entry x = s.pg.entry x := by
  refine h.miss x fun k hk heq => hout ?_
  rw [hlen] at hk
  have hmul : (k + 1) * pageSize ≤ n * pageSize := Nat.mul_le_mul_right _ hk
  rw [Nat.succ_mul] at hmul
  have hpage := canonical_inj hx (hcan k hk) hx' (by
    simp only [pageSize] at *
    omega) heq
  rw [Range.mem_def]
  simp only [pageSize] at *
  omega

variable {live H M L : List Range}

theorem Maps.entry_of_harmless {u v : Pgtable.State} {addr : Nat} {m : Mapping}
    (h : Maps fuel u addr [m] v) (hi : Pgtable.Inv u live H M) (hharm : Harmless fuel u addr)
    (x : Nat) : v.entry x = u.entry x := by
  have hto := (h.mapsTo hi).2
  by_cases hx : vpn x = vpn addr
  · have hx0 : vpn x = vpn (addr + 0 * pageSize) := by
      rw [hx, Nat.zero_mul, Nat.add_zero]
    rw [hto.hit (by simp) x 0 m rfl hx0]
    by_cases hcode : m.code = codeOk
    · cases h with
      | step hpage _ hmap _ =>
        rw [if_pos hcode, entry_congr hi.tree.root_pos hx]
        exact (hharm _ _ _ _ hpage hmap hcode).symm
    · rw [if_neg hcode, hto.vacant (by simp) x 0 m rfl hx0 hcode]
  · refine hto.miss x fun k hk => ?_
    obtain rfl : k = 0 := by simpa using hk
    rw [Nat.zero_mul, Nat.add_zero]
    exact hx

theorem Clean.exact (hi : Inv s live H M L) (hpos : 0 < size)
    (h : allocVm fuel s size = .ok (p, t)) (hp : p ≠ 0) (hc : Clean fuel s size) :
    Exact s t p size := by
  obtain ⟨hsize, L', log, u, hcut, hreps, hmaps, hlen, hlast⟩ := allocVm_cases hi hpos h hp
  obtain ⟨L₀, a, L₀', log₀, u₀, hL₀, hcut₀, hcan, hmaps₀, hlen₀, hok, hharm⟩ := hc
  obtain rfl := hL₀.unique hi.linear
  cases hcut.symm.trans hcut₀
  obtain ⟨rfl, rfl⟩ := hmaps.unique hmaps₀ (hlen.trans hlen₀.symm)
  obtain ⟨hal, hend⟩ := hi.bounds hsize hcut
  have hfew := canonical_few hal hend hcan
  obtain ⟨⟨live₁, H₁, hinv₁, -⟩, hto⟩ := hmaps.mapsTo hi.pg
  have hrest : (∀ i, t.phys.bit i = true → u.heap.phys.bit i = true) ∧
      ∀ x, t.pg.entry x = u.entry x := by
    rcases hlast with ⟨-, heq⟩ | ⟨hmod, m, hm⟩
    · rw [State.phys, heq]
      exact ⟨fun _ hb => hb, fun _ => rfl⟩
    · exact ⟨(hm.mapsTo hinv₁).2.bits, hm.entry_of_harmless hinv₁ (hharm hmod)⟩
  refine ⟨⟨L₀, L', hi.linear, hreps, fun b => ?_⟩,
    ⟨log.map Mapping.page, by simpa using hlen, hto.nodup, ?_, ?_⟩, ?_⟩
  · rw [← roundPage_eq hsize]
    exact cover_cutFirst_zero hcut b
  · intro pg hpg
    obtain ⟨m, hm, rfl⟩ := List.mem_map.mp hpg
    obtain ⟨i, hpage, hbit, hgone⟩ := hto.pages m hm
    exact ⟨i, hpage, hbit, Bool.eq_false_iff.mpr fun hb =>
      Bool.false_ne_true (hgone.symm.trans (hrest.1 i hb))⟩
  · intro k pg hk x h₁ h₂
    rw [List.getElem?_map] at hk
    obtain ⟨m, hm, rfl⟩ := Option.map_eq_some_iff.mp hk
    have hklt : k < pages size := hlen ▸ (List.getElem?_eq_some_iff.mp hm).1
    have hpal := page_aligned hal k
    have h₂' : x < p + k * pageSize + pageSize := by
      rw [Nat.add_assoc, ← Nat.succ_mul]
      exact h₂
    rw [State.translation, if_pos (canonical_page (hcan k hklt) hpal h₁ h₂'), hrest.2,
      hto.hit (by omega) x k m hm (vpn_page hpal h₁ h₂'),
      if_pos (hok m (List.mem_of_getElem? hm))]
  · intro x hx hout
    rw [State.translation, State.translation]
    split
    next hcx => rw [hrest.2, MapsTo.frame hto hlen hal hend hcan hcx hx hout]
    next => rfl

theorem Exact.translation (h : Exact s t p size) {k : Nat} (hk : k < pages size) :
    t.pg.translation (p + k * pageSize) ≠ 0 := by
  obtain ⟨pgs, hlen, -, -, hmap⟩ := h.mapped
  obtain ⟨pg, hpg⟩ : ∃ pg, pgs[k]? = some pg := by
    rw [← hlen] at hk
    exact ⟨_, List.getElem?_eq_getElem hk⟩
  rw [hmap k pg hpg (p + k * pageSize) (Nat.le_refl _) (by
    rw [Nat.succ_mul]
    simp only [pageSize]
    omega)]
  exact or_rwFlags_ne_zero pg

/-- In an exact call every page of the range is mapped, so it is canonical. -/
theorem Exact.canonical (h : Exact s t p size) : ∀ k < pages size, Canonical (p + k * pageSize) := by
  intro k hk
  by_contra hno
  exact h.translation hk (if_neg hno)

theorem Exact.clean (hi : Inv s live H M L) (hpos : 0 < size)
    (h : allocVm fuel s size = .ok (p, t)) (hp : p ≠ 0) (he : Exact s t p size) :
    Clean fuel s size := by
  obtain ⟨hsize, L', log, u, hcut, hreps, hmaps, hlen, hlast⟩ := allocVm_cases hi hpos h hp
  obtain ⟨hal, hend⟩ := hi.bounds hsize hcut
  have hcan := he.canonical
  have hfew := canonical_few hal hend hcan
  obtain ⟨⟨live₁, H₁, hinv₁, -⟩, hto⟩ := hmaps.mapsTo hi.pg
  refine ⟨L, p, L', log, u, hi.linear, hcut, hcan, hmaps, hlen, fun m hm => ?_, fun hmod => ?_⟩
  · -- a map that failed left its page without an entry
    by_contra hcode
    obtain ⟨k, hk⟩ := List.mem_iff_getElem?.mp hm
    have hklt : k < pages size := hlen ▸ (List.getElem?_eq_some_iff.mp hk).1
    have hzero : u.entry (p + k * pageSize) = 0 := by
      rw [hto.hit (by omega) _ k m hk rfl, if_neg hcode]
    refine he.translation hklt ?_
    rw [State.translation, if_pos (hcan k hklt)]
    rcases hlast with ⟨-, heq⟩ | ⟨-, m', hm'⟩
    · rw [heq, hzero]
    · rw [(hm'.mapsTo hinv₁).2.miss _ fun j hj => ?_, hzero]
      obtain rfl : j = 0 := by simpa using hj
      rw [Nat.zero_mul, Nat.add_zero, vpn_mod64]
      intro heq
      have := vpn_inj (by omega) (by omega) heq
      omega
  · -- the round behind the range wrote an entry outside of it
    intro page phys code v hpage hmap hcode
    rcases hlast with ⟨hne, -⟩ | ⟨-, m', hm'⟩
    · exact absurd hmod hne
    cases hm' with
    | step hpage' h0 hmap' hdone =>
      cases hpage.symm.trans hpage'
      cases hmap.symm.trans hmap'
      cases hdone
      have hround := (round_spec hinv₁ hpage h0 hmap).2
      obtain ⟨y, hy, hcy, hvy⟩ := exists_canonical ((p + pages size * pageSize) % 2 ^ 64)
      have hvy' : vpn y = vpn (p + pages size * pageSize) := by rw [hvy, vpn_mod64]
      have hout : y ∉ (⟨p, pages size * pageSize⟩ : Range) := by
        intro hin
        obtain ⟨k, hk, h₁, h₂⟩ := Range.exists_block hin
        rw [vpn_page (page_aligned hal k) h₁ h₂] at hvy'
        have := vpn_inj (by omega) (by omega) hvy'
        omega
      have hframe := he.frame y hy hout
      rw [State.translation, State.translation, if_pos hcy, if_pos hcy,
        hround.hit (by simp) y 0 _ rfl (by rw [hvy, Nat.zero_mul, Nat.add_zero]),
        if_pos hcode] at hframe
      rw [← entry_congr hinv₁.tree.root_pos hvy, MapsTo.frame hto hlen hal hend hcan hcy hy hout,
        ← hframe]

/-- The tables of `oneMapped`, on a machine with the free pages of `phys` and one
linear hole. -/
def withPages (phys : Phymem.State) (addr size : Nat) : State where
  linear := ((HoleList.init maxLinearHole).fill 0 addr size).push 0
  locked := false
  pg := ⟨oneMapped, 0x1000, Kheap.initKheap phys⟩

/-- Such a machine of 128M with the physical pages 5 and 6 free; the linear page
below the mapped one is free. -/
def neighbour : State :=
  withPages { Phymem.initPhyMem (64 * pageSize) with pgbits := [0x60#64, 0#64], pages := 2 }
    0x40000000 0x200000

theorem withPages_inv {phys : Phymem.State} {addr size : Nat} (hphys : Phymem.Inv phys)
    (hal : addr % pageSize = 0) (hend : addr + size ≤ 2 ^ 64) :
    Inv (withPages phys addr size) [⟨0x1000, page⟩, ⟨0x2000, page⟩, ⟨0x3000, page⟩] [] []
      [⟨addr, size⟩] where
  pg := oneMapped_inv hphys
  linear := (reps_init (by decide)).addSorted rfl
  whole := by
    intro q hq
    rw [List.mem_singleton.mp hq]
    exact ⟨hal, hend⟩

theorem neighbour_inv : Inv neighbour [⟨0x1000, page⟩, ⟨0x2000, page⟩, ⟨0x3000, page⟩] [] []
    [⟨0x40000000, 0x200000⟩] :=
  withPages_inv (phys_inv (n := 4) (k := 2) (by decide)) (by decide) (by decide)

/-- **`alloc_vm` maps exactly what it reserved** just when it is called in a
`Clean` state. -/
theorem allocVm_exact_iff (hi : Inv s live H M L) (hpos : 0 < size)
    (h : allocVm fuel s size = .ok (p, t)) (hp : p ≠ 0) :
    Exact s t p size ↔ Clean fuel s size :=
  ⟨Exact.clean hi hpos h hp, Clean.exact hi hpos h hp⟩

/-- **Closed form**: for a size that is no whole number of pages, where the directories
of the range are there, all that is asked is that the range is canonical. -/
theorem clean_iff_of_directories (hi : Inv s live H M L) (hpos : 0 < size)
    (h : allocVm fuel s size = .ok (p, t)) (hp : p ≠ 0) (hmod : size % pageSize ≠ 0)
    (hd : ∀ k < pages size, s.pg.Directory (p + k * pageSize)) :
    Clean fuel s size ↔ ∀ k < pages size, Canonical (p + k * pageSize) := by
  constructor
  · exact fun hc => (hc.exact hi hpos h hp).canonical
  · intro hcan
    obtain ⟨-, L', log, u, hcut, -, hmaps, hlen, -⟩ := allocVm_cases hi hpos h hp
    exact ⟨L, p, L', log, u, hi.linear, hcut, hcan, hmaps, hlen,
      hmaps.codes_of_directories hi.pg (hlen ▸ hd), fun hwhole => absurd hwhole hmod⟩

/-- Less than a page: one page is mapped, and the page behind is left alone. -/
theorem allocVm_exact_iff_part :
    ∃ t, allocVm 8 neighbour 0x1000 = .ok (0x40000000, t) ∧ Exact neighbour t 0x40000000 0x1000 := by
  obtain ⟨t, h⟩ : ∃ t, allocVm 8 neighbour 0x1000 = .ok (0x40000000, t) := ⟨_, rfl⟩
  have hclean := clean_iff_of_directories neighbour_inv (by decide) h (by decide) (by decide) (by decide)
  exact ⟨t, h, (allocVm_exact_iff neighbour_inv (by decide) h (by decide)).mpr
    (hclean.mpr (by decide))⟩

/-- A whole page: a second one is taken and mapped over the neighbour's. -/
theorem allocVm_remaps_neighbour :
    ∃ s t live H M L, Inv s live H M L ∧ allocVm 8 s 0x200000 = .ok (0x40000000, t) ∧
      s.pg.translation 0x40200000 = 0x800083 ∧ t.pg.translation 0x40200000 = 0xc00083 ∧
      ¬ Exact s t 0x40000000 0x200000 := by
  refine ⟨neighbour, _, _, _, _, _, neighbour_inv, rfl, by decide, by decide +kernel, fun h => ?_⟩
  have hout : 0x40200000 ∉ (⟨0x40000000, pages 0x200000 * pageSize⟩ : Range) := by
    rw [Range.mem_def]
    decide
  exact absurd (h.frame 0x40200000 (by decide) hout) (by decide +kernel)

end Yaos.Vm
