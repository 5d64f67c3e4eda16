import Yaos.Pgtable.Mapping

/-!
# Mapping devices (`ioremap_nocache` in `arch/x86_64/pgtable.c`)

A device at physical address `a` is mapped at `a + IO_MEM_BASE`. The sum is
taken modulo `2 ^ 64` and the base is 32G below the end of the address space,
so a device at or above 32G is mapped over ordinary memory. The loop runs
while `added <= size`: where the region ends on a page boundary the page
behind it is mapped too. The return code of `map_page_p2v` is dropped.
-/

namespace Yaos.Pgtable

open Yaos.Lib Yaos.Lib.Radix
open Yaos.Phymem (pageSize)

/-- `PTE_PWT`. -/
def ptePWT : Nat := 0x008

/-- `PTE_PCD`. -/
def ptePCD : Nat := 0x010

/-- `IO_MEM_BASE`. -/
def ioMemBase : Nat := 0xfffffff800000000

/-- `IO2V`. -/
def io2v (addr : Nat) : Nat := (addr + ioMemBase) % 2 ^ 64

/-- The flags of a device page: present, writable, not cached. -/
def ioFlags : Nat := pteP ||| pteW ||| ptePWT ||| ptePCD ||| ptePS

/-- The loop of `ioremap_nocache`. -/
def ioremapLoop (fuel size : Nat) : Nat → State → Nat → Nat → Outcome State
  | 0, _, _, _ => .error .spin
  | n + 1, s, paddr, added =>
      if added ≤ size then do
        let (_, s) ← mapPageP2v fuel s paddr (io2v paddr) ioFlags
        ioremapLoop fuel size n s ((paddr + pageSize) % 2 ^ 64) ((added + pageSize) % 2 ^ 64)
      else .ok s

/-- `ioremap_nocache`. -/
def ioremapNocache (fuel : Nat) (s : State) (addr size : Nat) : Outcome (Nat × State) := do
  let paddr := addr / pageSize * pageSize
  let size := (size + (addr - paddr)) % 2 ^ 64
  let s ← ioremapLoop fuel size fuel s paddr 0
  .ok (io2v addr, s)

/-- Every byte of the region is reached, uncached, at its distance from the
address that was returned; addresses below `IO_MEM_BASE` are translated as
before. -/
structure Reached (s t : State) (v addr size : Nat) : Prop where
  bytes : ∀ a, addr ≤ a → a < addr + size →
    t.translation ((v + (a - addr)) % 2 ^ 64) = a / pageSize * pageSize ||| ioFlags
  below : ∀ x < ioMemBase, t.translation x = s.translation x

/-! ## Rounds of the loop -/

/-- The rounds of the loop from a physical address on, with their log. -/
inductive Rounds (fuel : Nat) : State → Nat → List Mapping → State → Prop where
  | done (s : State) (paddr : Nat) : Rounds fuel s paddr [] s
  | step {s s₁ t : State} {paddr code : Nat} {log : List Mapping} :
      mapPageP2v fuel s paddr (io2v paddr) ioFlags = .ok (code, s₁) →
      Rounds fuel s₁ ((paddr + pageSize) % 2 ^ 64) log t →
      Rounds fuel s paddr (⟨paddr, code⟩ :: log) t

variable {fuel size addr paddr : Nat} {s t u : State} {log : List Mapping} {live L M : List Range}

/-- What is still to be mapped when `added` bytes are: one round more than
there are full pages. -/
theorem ioremapLoop_eq_ok {n added : Nat} (hal : added % pageSize = 0)
    (hsize : size < 2 ^ 64 - pageSize) (hle : added ≤ (size / pageSize + 1) * pageSize) :
    ioremapLoop fuel size n s paddr added = .ok t ↔
      ∃ log, Rounds fuel s paddr log t ∧ log.length < n ∧
        log.length * pageSize + added = (size / pageSize + 1) * pageSize := by
  induction n generalizing s paddr added with
  | zero => simp [ioremapLoop]
  | succ n ih =>
    rw [ioremapLoop]
    by_cases hin : added ≤ size
    · have hnext : (added + pageSize) % 2 ^ 64 = added + pageSize := Nat.mod_eq_of_lt (by omega)
      have hmore : added + pageSize ≤ (size / pageSize + 1) * pageSize := by
        simp only [pageSize] at *
        omega
      rw [if_pos hin, bind_eq_ok]
      constructor
      · rintro ⟨⟨code, s₁⟩, hm, h⟩
        rw [hnext, ih (by simpa using hal) hmore] at h
        obtain ⟨log, hr, hlt, hlen⟩ := h
        refine ⟨⟨paddr, code⟩ :: log, .step hm hr, ?_, ?_⟩
        · rw [List.length_cons]
          omega
        · rw [List.length_cons, Nat.succ_mul]
          omega
      · rintro ⟨log, hr, hlt, hlen⟩
        cases hr with
        | done =>
          -- there is a page left
          rw [List.length_nil, Nat.zero_mul, Nat.zero_add] at hlen
          simp only [pageSize] at *
          omega
        | @step _ s₁ _ _ code log hm hr =>
          rw [List.length_cons] at hlt
          rw [List.length_cons, Nat.succ_mul] at hlen
          refine ⟨(code, s₁), hm, ?_⟩
          rw [hnext, ih (by simpa using hal) hmore]
          exact ⟨log, hr, by omega, by omega⟩
    · have hend : added = (size / pageSize + 1) * pageSize := by
        simp only [pageSize] at *
        omega
      rw [if_neg hin]
      constructor
      · intro h
        cases h
        exact ⟨[], .done _ _, by simp, by simpa using hend⟩
      · rintro ⟨log, hr, -, hlen⟩
        have hnil : log = [] := by
          rw [← List.length_eq_zero_iff]
          simp only [pageSize] at *
          omega
        subst hnil
        cases hr
        rfl

theorem Rounds.unique {log' : List Mapping} {u : State} (h : Rounds fuel s paddr log t)
    (h' : Rounds fuel s paddr log' u) (hl : log.length = log'.length) : log = log' ∧ t = u := by
  induction h generalizing log' with
  | done =>
    obtain rfl : log' = [] := List.length_eq_zero_iff.mp hl.symm
    cases h'
    exact ⟨rfl, rfl⟩
  | step hm _ ih =>
    cases h' with
    | done => simp at hl
    | step hm' hr' =>
      cases hm.symm.trans hm'
      obtain ⟨rfl, rfl⟩ := ih hr' (by simpa using hl)
      exact ⟨rfl, rfl⟩

/-- A region that is far from the end of `ulong` is mapped in as many rounds
as it has full pages, and one more. -/
theorem ioremapNocache_eq_ok {v : Nat} (hsize : addr % pageSize + size < 2 ^ 64 - pageSize) :
    ioremapNocache fuel s addr size = .ok (v, t) ↔ v = io2v addr ∧
      ∃ log, Rounds fuel s (addr / pageSize * pageSize) log t ∧ log.length < fuel ∧
        log.length = (addr % pageSize + size) / pageSize + 1 := by
  have hoff : (size + (addr - addr / pageSize * pageSize)) % 2 ^ 64 = addr % pageSize + size := by
    have hdm : addr / pageSize * pageSize + addr % pageSize = addr := Nat.div_add_mod' _ _
    rw [Nat.mod_eq_of_lt (by omega)]
    omega
  change (ioremapLoop _ ((size + (addr - addr / pageSize * pageSize)) % 2 ^ 64) _ _ _ _ >>= _) = _ ↔ _
  rw [hoff, bind_eq_ok]
  simp only [ioremapLoop_eq_ok (Nat.zero_mod _) hsize (Nat.zero_le _), Nat.add_zero,
    Nat.mul_left_inj (show pageSize ≠ 0 by decide), Except.ok.injEq, Prod.mk.injEq]
  constructor
  · rintro ⟨_, hr, hv, rfl⟩
    exact ⟨hv.symm, hr⟩
  · rintro ⟨hv, hr⟩
    exact ⟨t, hr, hv.symm, rfl⟩

/-! ## What the rounds do to the entries -/

theorem next_page (x k : Nat) :
    ((x + pageSize) % 2 ^ 64 + k * pageSize) % 2 ^ 64 = (x + (k + 1) * pageSize) % 2 ^ 64 := by
  rw [Nat.mod_add_mod, Nat.succ_mul, Nat.add_assoc, Nat.add_comm pageSize]

theorem io2v_next (x : Nat) : io2v ((x + pageSize) % 2 ^ 64) = (io2v x + pageSize) % 2 ^ 64 := by
  simp only [io2v, ioMemBase, pageSize]
  omega

theorem vpn_io2v_add (x k : Nat) :
    vpn (io2v x + k * pageSize) = vpn (io2v (x + k * pageSize)) := by
  simp only [vpn, io2v, ioMemBase, pageSize]
  omega

theorem Rounds.page (h : Rounds fuel s paddr log t) (hp : paddr < 2 ^ 64) {k : Nat} {m : Mapping}
    (hk : log[k]? = some m) : m.page = (paddr + k * pageSize) % 2 ^ 64 := by
  induction h generalizing k with
  | done => simp at hk
  | step _ _ ih =>
    cases k with
    | zero =>
      obtain rfl : _ = m := by simpa using hk
      rw [Nat.zero_mul, Nat.add_zero, Nat.mod_eq_of_lt hp]
    | succ k => rw [ih (Nat.mod_lt _ (by decide)) (by simpa using hk), next_page]

/-- **The loop** does to the entries what its log says. -/
theorem Rounds.mapped (h : Rounds fuel s paddr log t) (hi : Inv s live L M) :
    Mapped ioFlags s t (io2v paddr) log := by
  induction h generalizing live L with
  | done s paddr => exact .nil _ s _
  | step hm _ ih =>
    obtain ⟨live₁, L₁, hi₁, -⟩ := mapPageP2v_spec hi hm
    have hrest := ih hi₁
    rw [io2v_next] at hrest
    exact (mapped_one hi hm).cons hrest

theorem Rounds.entry (h : Rounds fuel s paddr log t) (hi : Inv s live L M) (hp : paddr < 2 ^ 64)
    (hlen : log.length ≤ 2 ^ 27) {x k : Nat} {m : Mapping} (hk : log[k]? = some m)
    (hx : vpn x = vpn (io2v (paddr + k * pageSize))) :
    t.entry x = if m.code = codeOk then (paddr + k * pageSize) % 2 ^ 64 ||| ioFlags else 0 := by
  rw [(h.mapped hi).hit hlen x k m hk (by rw [vpn_io2v_add, hx]), h.page hp hk]

/-! ## When a device is reached -/

/-- The page at a device address: it lies below 32G, or the address that
the sum wraps to is canonical and is translated to the device already. -/
def Placeable (s : State) (p : Nat) : Prop :=
  p < 2 ^ 35 ∨ Canonical (p - 2 ^ 35) ∧ s.entry (p - 2 ^ 35) = p ||| ioFlags

def ioPages (addr size : Nat) : Nat := (addr % pageSize + size + (pageSize - 1)) / pageSize

/-- When `ioremap_nocache` works, in terms of the state it is called in:
every page of the region can be placed and the heap supplies the tables;
where the region ends on a page boundary, the page behind it is not mapped,
or lies at an offset below 32G, or is translated to that page already. -/
structure Mappable (fuel : Nat) (s : State) (addr size : Nat) : Prop where
  rounds : (addr % pageSize + size) / pageSize + 1 < fuel
  place : ∀ k < ioPages addr size, Placeable s (addr / pageSize * pageSize + k * pageSize)
  tables : ∃ log t, Rounds fuel s (addr / pageSize * pageSize) log t ∧
    log.length = (addr % pageSize + size) / pageSize + 1 ∧
    (∀ k < ioPages addr size, ∃ m, log[k]? = some m ∧ m.code = codeOk) ∧
    (∀ m, log[ioPages addr size]? = some m → m.code = codeOk → (addr + size) % 2 ^ 48 < 2 ^ 35 ∨
      s.entry (io2v (addr + size)) = (addr + size) % 2 ^ 64 ||| ioFlags)

theorem or_ioFlags_ne_zero (p : Nat) : p ||| ioFlags ≠ 0 := by
  intro h
  have := (Nat.or_eq_zero_iff.mp h).2
  revert this
  decide

/-! ### Addresses -/

theorem io2v_low {p : Nat} (h : p < 2 ^ 35) : io2v p = ioMemBase + p := by
  simp only [io2v, ioMemBase]
  omega

theorem io2v_high {p : Nat} (h : 2 ^ 35 ≤ p) (hp : p < 2 ^ 64) : io2v p = p - 2 ^ 35 := by
  simp only [io2v, ioMemBase]
  omega

theorem io2v_offset {a : Nat} (h : addr ≤ a) : (io2v addr + (a - addr)) % 2 ^ 64 = io2v a := by
  simp only [io2v, ioMemBase]
  omega

theorem vpn_io2v_page (a : Nat) : vpn (io2v a) = vpn (io2v (a / pageSize * pageSize)) := by
  simp only [vpn, io2v, ioMemBase, pageSize]
  omega

theorem canonical_io2v_page (a : Nat) :
    Canonical (io2v a) ↔ Canonical (io2v (a / pageSize * pageSize)) := by
  simp only [Canonical, io2v, ioMemBase, pageSize]
  omega

theorem exists_page {a : Nat} (h₁ : addr ≤ a) (h₂ : a < addr + size) :
    ∃ k < ioPages addr size, a / pageSize * pageSize = addr / pageSize * pageSize + k * pageSize := by
  simp only [ioPages, pageSize]
  exact ⟨a / 2097152 - addr / 2097152, by omega, by omega⟩

theorem exists_byte {k : Nat} (hpos : 0 < size) (hk : k < ioPages addr size) :
    ∃ a, addr ≤ a ∧ a < addr + size ∧
      a / pageSize * pageSize = addr / pageSize * pageSize + k * pageSize := by
  simp only [ioPages, pageSize] at *
  exact ⟨max addr (addr / 2097152 * 2097152 + k * 2097152), by omega, by omega, by omega⟩

theorem base_lt (hpos : 0 < size) (hend : addr + size ≤ 2 ^ 64) :
    addr / pageSize * pageSize < 2 ^ 64 := by
  have := Nat.div_mul_le_self addr pageSize
  omega

theorem page_lt {k : Nat} (hend : addr + size ≤ 2 ^ 64) (hk : k < ioPages addr size) :
    addr / pageSize * pageSize + k * pageSize < 2 ^ 64 := by
  simp only [ioPages, pageSize] at *
  omega

theorem ioPages_lt (hend : addr + size ≤ 2 ^ 64)
    (h : ∀ k < ioPages addr size, Canonical (io2v (addr / pageSize * pageSize + k * pageSize))) :
    ioPages addr size < 2 ^ 27 := by
  by_contra hge
  simp only [Canonical, io2v, ioMemBase, ioPages, pageSize] at *
  by_cases hlow : addr < 2 ^ 47 + 2 ^ 35
  · have := h ((2 ^ 47 + 2 ^ 35) / 2097152 - addr / 2097152) (by omega)
    omega
  · have := h 0 (by omega)
    omega

theorem Placeable.canonical {p : Nat} (h : Placeable s p) (hp : p < 2 ^ 64) :
    Canonical (io2v p) := by
  by_cases hlow : p < 2 ^ 35
  · rw [io2v_low hlow]
    simp only [Canonical, ioMemBase]
    omega
  · rw [io2v_high (by omega) hp]
    exact (h.resolve_left hlow).1

/-- The page behind the region is translated above `IO_MEM_BASE` exactly if
it is at an offset below 32G in its part of the address space. -/
theorem vpn_window {e x : Nat} (hx : Canonical x) (hx' : x < 2 ^ 64) (hal : e % pageSize = 0)
    (h : vpn x = vpn (io2v e)) : x < ioMemBase ↔ ¬ e % 2 ^ 48 < 2 ^ 35 := by
  simp only [Canonical, vpn, io2v, ioMemBase, pageSize] at *
  omega

/-- A round for each page, and one for the page behind a region that ends on
a page boundary. -/
theorem rounds_cases (addr size : Nat) :
    (addr % pageSize + size) / pageSize + 1 = ioPages addr size ∨
      (addr % pageSize + size) / pageSize + 1 = ioPages addr size + 1 ∧
        addr / pageSize * pageSize + ioPages addr size * pageSize = addr + size := by
  simp only [ioPages, pageSize]
  omega

theorem rounds_far (h : ioPages addr size < 2 ^ 27) :
    addr % pageSize + size < 2 ^ 64 - pageSize := by
  simp only [ioPages, pageSize] at *
  omega

/-! ### Both directions -/

theorem Reached.page {k : Nat} (h : Reached s t (io2v addr) addr size) (hpos : 0 < size)
    (hk : k < ioPages addr size) :
    Canonical (io2v (addr / pageSize * pageSize + k * pageSize)) ∧
      ∃ x, vpn x = vpn (io2v (addr / pageSize * pageSize + k * pageSize)) ∧
        t.entry x = (addr / pageSize * pageSize + k * pageSize) ||| ioFlags := by
  obtain ⟨a, h₁, h₂, ha⟩ := exists_byte hpos hk
  have hb := h.bytes a h₁ h₂
  rw [io2v_offset h₁, State.translation] at hb
  split at hb
  case isTrue hc =>
    rw [← ha]
    exact ⟨(canonical_io2v_page a).mp hc, _, vpn_io2v_page a, hb⟩
  case isFalse => exact absurd hb.symm (or_ioFlags_ne_zero _)

/-- A canonical address below `IO_MEM_BASE` whose entry did not change. -/
theorem Reached.entry_eq {x : Nat} (h : Reached s t (io2v addr) addr size) (hc : Canonical x)
    (hx : x < ioMemBase) : s.entry x = t.entry x := by
  have := h.below x hx
  rw [State.translation, State.translation, if_pos hc, if_pos hc] at this
  exact this.symm

theorem Reached.mappable (hi : Inv s live L M) (hpos : 0 < size) (hend : addr + size ≤ 2 ^ 64)
    (hrun : ioremapNocache fuel s addr size = .ok (io2v addr, t))
    (h : Reached s t (io2v addr) addr size) : Mappable fuel s addr size := by
  have hfew := ioPages_lt hend fun k hk => (h.page hpos hk).1
  obtain ⟨-, log, hr, hfuel, hlen⟩ := (ioremapNocache_eq_ok (rounds_far hfew)).mp hrun
  have hrounds := rounds_cases addr size
  have hhit {x k : Nat} {m : Mapping} :=
    hr.entry (x := x) (k := k) (m := m) hi (base_lt hpos hend) (by omega)
  have hcodes : ∀ k < ioPages addr size, ∃ m, log[k]? = some m ∧ m.code = codeOk := by
    intro k hk
    obtain ⟨-, x, hx, hentry⟩ := h.page hpos hk
    have hm := List.getElem?_eq_getElem (show k < log.length by omega)
    rw [hhit hm hx] at hentry
    split at hentry
    case isTrue hok => exact ⟨_, hm, hok⟩
    case isFalse => exact absurd hentry.symm (or_ioFlags_ne_zero _)
  refine ⟨by omega, fun k hk => ?_, log, t, hr, hlen, hcodes, fun m hm hok => ?_⟩
  · by_cases hlow : addr / pageSize * pageSize + k * pageSize < 2 ^ 35
    · exact .inl hlow
    · -- the sum wraps: the entry is one below `IO_MEM_BASE`, and it did not change
      have hlt := page_lt hend hk
      have hc := (h.page hpos hk).1
      obtain ⟨m, hm, hok⟩ := hcodes k hk
      have hentry := hhit hm rfl
      rw [if_pos hok, Nat.mod_eq_of_lt hlt] at hentry
      rw [io2v_high (by omega) hlt] at hc hentry
      refine .inr ⟨hc, ?_⟩
      rw [h.entry_eq hc (by simp only [ioMemBase]; omega), hentry]
  · obtain ⟨-, hbase⟩ := hrounds.resolve_left fun heq => by
      have := (List.getElem?_eq_some_iff.mp hm).1
      omega
    by_cases hwin : (addr + size) % 2 ^ 48 < 2 ^ 35
    · exact .inl hwin
    · obtain ⟨y, hy, hcan, hvpn⟩ := exists_canonical (io2v (addr + size))
      have hentry := hhit (x := y) hm (by rw [hvpn, hbase])
      rw [if_pos hok, hbase] at hentry
      have hal : (addr + size) % pageSize = 0 := by
        rw [← hbase, ← Nat.add_mul, Nat.mul_mod_left]
      rw [← entry_congr hi.tree.root_pos hvpn, h.entry_eq hcan ((vpn_window hcan hy hal hvpn).mpr hwin)]
      exact .inr hentry

/-- An ordinary address that is remapped to a page that can be placed is
remapped to the page it had. -/
theorem Placeable.entry_eq {p x : Nat} (h : Placeable s p) (h0 : s.pml4 ≠ 0) (hp : p < 2 ^ 64)
    (hal : p % pageSize = 0) (hc : Canonical x) (hx : x < ioMemBase)
    (hvpn : vpn x = vpn (io2v p)) : s.entry x = p ||| ioFlags := by
  have hhigh : ¬ p < 2 ^ 35 := by
    have := (vpn_window hc (by simp only [ioMemBase] at hx; omega) hal hvpn).mp hx
    omega
  rw [entry_congr h0 hvpn, io2v_high (by omega) hp]
  exact (h.resolve_left hhigh).2

theorem Mappable.reached (hi : Inv s live L M) (hpos : 0 < size) (hend : addr + size ≤ 2 ^ 64)
    (h : Mappable fuel s addr size) :
    ∃ t, ioremapNocache fuel s addr size = .ok (io2v addr, t) ∧
      Reached s t (io2v addr) addr size := by
  obtain ⟨hfuel, hplace, log, t, hr, hlen, hcodes, hlast⟩ := h
  have hfew := ioPages_lt hend fun k hk => (hplace k hk).canonical (page_lt hend hk)
  have hrounds := rounds_cases addr size
  have hhit {x k : Nat} {m : Mapping} :=
    hr.entry (x := x) (k := k) (m := m) hi (base_lt hpos hend) (by omega)
  refine ⟨t, (ioremapNocache_eq_ok (rounds_far hfew)).mpr ⟨rfl, log, hr, by omega, hlen⟩,
    fun a h₁ h₂ => ?_, fun x hx => ?_⟩
  · obtain ⟨k, hk, ha⟩ := exists_page h₁ h₂
    have hlt := page_lt hend hk
    obtain ⟨m, hm, hok⟩ := hcodes k hk
    have hc : Canonical (io2v a) := by
      rw [canonical_io2v_page, ha]
      exact (hplace k hk).canonical hlt
    rw [io2v_offset h₁, State.translation, if_pos hc, hhit hm (by rw [vpn_io2v_page, ha]), if_pos hok,
      Nat.mod_eq_of_lt hlt, ha]
  · rw [State.translation, State.translation]
    split
    case isFalse => rfl
    case isTrue hcan =>
    by_cases hmiss : ∀ k < log.length,
        vpn x ≠ vpn (io2v (addr / pageSize * pageSize + k * pageSize))
    · exact (hr.mapped hi).miss x fun k hk => by
        rw [vpn_io2v_add]
        exact hmiss k hk
    simp only [not_forall, not_not] at hmiss
    obtain ⟨k, hk, hvpn⟩ := hmiss
    have hal : (addr / pageSize * pageSize + k * pageSize) % pageSize = 0 := by
      rw [← Nat.add_mul, Nat.mul_mod_left]
    by_cases hin : k < ioPages addr size
    · have hlt := page_lt hend hin
      obtain ⟨m, hm, hok⟩ := hcodes k hin
      rw [hhit hm hvpn, if_pos hok, Nat.mod_eq_of_lt hlt,
        (hplace k hin).entry_eq hi.tree.root_pos hlt hal hcan hx hvpn]
    · -- the page behind the region
      obtain ⟨hone, hbase⟩ := hrounds.resolve_left (by omega)
      obtain rfl : k = ioPages addr size := by omega
      have hget := List.getElem?_eq_getElem hk
      have hvacant := (hr.mapped hi).vacant (by omega) x _ _ hget (by rw [vpn_io2v_add, hvpn])
      rw [hhit hget hvpn]
      rw [hbase] at hvpn hal ⊢
      split
      case isTrue hok =>
        have hwin := (vpn_window hcan (by simp only [ioMemBase] at hx; omega) hal hvpn).mp hx
        rw [entry_congr hi.tree.root_pos hvpn, (hlast _ hget hok).resolve_left hwin]
      case isFalse hno => rw [hvacant hno]

/-! ### Where the directories are there -/

/-- With a directory for each of its pages the loop maps any number of them. -/
theorem rounds_of_directories (fuel n : Nat) (hi : Inv s live L M) (hal : paddr % pageSize = 0)
    (hd : ∀ k < n, s.Directory (io2v (paddr + k * pageSize))) :
    ∃ log t, Rounds fuel s paddr log t ∧ log.length = n ∧ ∀ m ∈ log, m.code = codeOk := by
  induction n generalizing s live L paddr with
  | zero => exact ⟨[], s, .done s paddr, rfl, by simp⟩
  | succ n ih =>
    have hfirst : s.Directory (io2v paddr) := by simpa using hd 0 (Nat.succ_pos n)
    have hpage : paddr % 0x1000 = 0 := by
      simp only [pageSize] at hal
      omega
    obtain ⟨s₁, hm⟩ : ∃ s₁, mapPageP2v fuel s paddr (io2v paddr) ioFlags = .ok (codeOk, s₁) :=
      ⟨_, mapPageP2v_present hi.tree.root_pos hpage (by decide) hfirst⟩
    obtain ⟨live₁, L₁, hi₁, -⟩ := mapPageP2v_spec hi hm
    obtain ⟨log, t, hr, hlen, hok⟩ := ih hi₁
      (show (paddr + pageSize) % 2 ^ 64 % pageSize = 0 by simp only [pageSize] at *; omega) fun k hk => by
        refine (directory_congr ?_).mpr (directory_kept hi hm (hd (k + 1) (Nat.succ_lt_succ hk)))
        rw [← vpn_io2v_add, io2v_next, vpn_next, vpn_io2v_add]
    exact ⟨_, t, .step hm hr, by rw [List.length_cons, hlen], List.forall_mem_cons.mpr ⟨rfl, hok⟩⟩

/-- **Closed form**: where the directories of all its rounds are there, a region can be
mapped exactly if its pages can be placed, and the page behind one that ends on a page
boundary is at an offset below 32G or is translated to itself already. -/
theorem mappable_iff_of_directories (hi : Inv s live L M)
    (hfuel : (addr % pageSize + size) / pageSize + 1 < fuel)
    (hd : ∀ k < (addr % pageSize + size) / pageSize + 1,
      s.Directory (io2v (addr / pageSize * pageSize + k * pageSize))) :
    Mappable fuel s addr size ↔
      (∀ k < ioPages addr size, Placeable s (addr / pageSize * pageSize + k * pageSize)) ∧
      ((addr + size) % pageSize = 0 → (addr + size) % 2 ^ 48 < 2 ^ 35 ∨
        s.entry (io2v (addr + size)) = (addr + size) % 2 ^ 64 ||| ioFlags) := by
  obtain ⟨log, t, hr, hlen, hok⟩ := rounds_of_directories fuel _ hi
    (Nat.mul_mod_left _ pageSize) hd
  have hcode {k : Nat} {m : Mapping} (hm : log[k]? = some m) : m.code = codeOk :=
    hok _ (List.mem_of_getElem? hm)
  have hpages : ioPages addr size < log.length ↔ (addr + size) % pageSize = 0 := by
    rw [hlen]
    simp only [ioPages, pageSize]
    omega
  constructor
  · rintro ⟨-, hplace, log', t', hr', hlen', -, hlast⟩
    obtain ⟨rfl, -⟩ := hr'.unique hr (hlen'.trans hlen.symm)
    refine ⟨hplace, fun hmod => ?_⟩
    have hm := List.getElem?_eq_getElem (hpages.mpr hmod)
    exact hlast _ hm (hcode hm)
  · rintro ⟨hplace, hlast⟩
    refine ⟨hfuel, hplace, log, t, hr, hlen, fun k hk => ?_, fun m hm _ => ?_⟩
    · have hm := List.getElem?_eq_getElem (show k < log.length by
        have := rounds_cases addr size
        omega)
      exact ⟨_, hm, hcode hm⟩
    · exact hlast (hpages.mp (List.getElem?_eq_some_iff.mp hm).1)

/-! ### Both -/

/-- **Device memory**: a region is reached where it was mapped, with no
ordinary address remapped, exactly if it is mappable. -/
theorem ioremap_reached_iff (hi : Inv s live L M) (hpos : 0 < size) (hend : addr + size ≤ 2 ^ 64) :
    (∃ v t, ioremapNocache fuel s addr size = .ok (v, t) ∧ Reached s t v addr size) ↔
      Mappable fuel s addr size := by
  constructor
  · rintro ⟨v, t, hrun, h⟩
    obtain ⟨_, -, hret⟩ := bind_eq_ok.mp hrun
    obtain ⟨hv, -⟩ := Prod.mk.inj (Except.ok.inj hret)
    rw [← hv] at hrun h
    exact h.mappable hi hpos hend hrun
  · intro h
    obtain ⟨t, hrun, hr⟩ := h.reached hi hpos hend
    exact ⟨_, t, hrun, hr⟩

/-- The registers of a timer below 4G: one page, and both tables are new. -/
theorem ioremap_reached_timer :
    ∃ v t, ioremapNocache 8 room 0xfed00000 0x400 = .ok (v, t) ∧
      Reached room t v 0xfed00000 0x400 := by
  obtain ⟨⟨c, t⟩, hmap, rfl⟩ : ∃ r, mapPageP2v 8 room 0xfec00000 (io2v 0xfec00000) ioFlags =
      .ok r ∧ r.1 = codeOk := exists_eq_ok (by decide +kernel)
  refine (ioremap_reached_iff room_inv (by decide) (by decide)).mpr ⟨by decide, ?_, [⟨0xfec00000, codeOk⟩],
    t, .step hmap (.done _ _), by decide, ?_, ?_⟩
  · intro k hk
    obtain rfl : k = 0 := Nat.lt_one_iff.mp hk
    exact .inl (by decide)
  · intro k hk
    obtain rfl : k = 0 := Nat.lt_one_iff.mp hk
    exact ⟨_, rfl, rfl⟩
  · intro m hlast
    cases hlast

/-- **Ordinary memory is remapped**: a device at 33G is mapped over the
page at `0x40200000`. -/
theorem ioremap_over_memory :
    ∃ t, ioremapNocache 8 room 0x840200000 0x1000 = .ok (0x40200000, t) ∧
      room.translation 0x40200000 = 0x800083 ∧ t.translation 0x40200000 = 0x84020009b ∧
      ¬ Reached room t 0x40200000 0x840200000 0x1000 := by
  obtain ⟨⟨v, t⟩, hrun, hr⟩ : ∃ r, ioremapNocache 8 room 0x840200000 0x1000 = .ok r ∧
      (r.1, r.2.translation 0x40200000) = (0x40200000, 0x84020009b) :=
    exists_eq_ok (by decide +kernel)
  obtain ⟨hv, ht⟩ := Prod.mk.inj hr
  have hs : room.translation 0x40200000 = 0x800083 := by decide
  refine ⟨t, by rw [hrun, ← hv], hs, ht, fun h => ?_⟩
  have := h.below 0x40200000 (by decide)
  rw [hs, ht] at this
  cases this

end Yaos.Pgtable
