import Yaos.Vm.AllocVm

/-!
# Stacks with a guard page

`alloc_vm_stack` reserves one page more than it maps, the lowest one, so
that a stack that overflows faults. Whether that page stays unmapped
depends on all the other allocations, since linear addresses are handed
out next to each other.

An allocation of a whole number of pages maps the page behind its range
(the loops run while `phsize <= size`), and that may be a guard page.
Otherwise nothing can go wrong as long as every map succeeds: `free_linear`
asserts that the size is a whole number of pages, so of the other
allocations none is ever given back.
-/

namespace Yaos.Vm

open Yaos.Lib Yaos.Holes Yaos.Pgtable
open Yaos.Phymem (pageSize)

structure Block where
  kind : Kind
  addr : Nat
  size : Nat
  deriving DecidableEq

def Block.body (b : Block) : Range := ⟨b.addr, pages b.size * pageSize⟩

def Block.below (b : Block) : Range := ⟨b.addr - pageSize, pageSize⟩

/-- The virtual memory and the allocations that are live. -/
structure World where
  vm : State
  live : List Block

inductive Op where
  | alloc (k : Kind) (size : Nat)
  | free (b : Block)

/-- One call that returns; a free has the arguments of a live allocation. -/
def Step (fuel : Nat) (w : World) (op : Op) (w' : World) : Prop :=
  match op with
  | .alloc k size => ∃ p s, k.alloc fuel w.vm size = .ok (p, s) ∧
      w' = ⟨s, if p = 0 then w.live else ⟨k, p, size⟩ :: w.live⟩
  | .free b => b ∈ w.live ∧ ∃ s, b.kind.free fuel w.vm b.addr b.size = .ok s ∧
      w' = ⟨s, w.live.erase b⟩

/-- The physical page that an address is mapped to. -/
def State.target (s : State) (x : Nat) : Option Nat :=
  if s.pg.translation x % 2 = 1 then some (s.pg.translation x / pageSize) else none

/-- Two allocations have no physical page in common. -/
def Separate (s : State) (b c : Block) : Prop :=
  ∀ x ∈ b.body, ∀ y ∈ c.body, ∀ i, s.target x = some i → s.target y ≠ some i

/-- **Guarded stacks**: the page below a live stack is not mapped; its own
pages are, and to pages that no other allocation maps. -/
structure Guarded (w : World) : Prop where
  below : ∀ b ∈ w.live, b.kind = .stack → ∀ x ∈ b.below, w.vm.target x = none
  mapped : ∀ b ∈ w.live, b.kind = .stack → ∀ x ∈ b.body, (w.vm.target x).isSome
  separate : w.live.Pairwise fun b c => b.kind = .stack ∨ c.kind = .stack → Separate w.vm b c

/-- A call that can do no harm: the size is no whole number of pages and
far from the end of `ulong`, the range lies in canonical addresses, and
the heap supplies the tables it needs. -/
def Fine (fuel : Nat) (s : State) : Op → Prop
  | .alloc k size => size % pageSize ≠ 0 ∧ size + 2 * pageSize < 2 ^ 64 ∧
      ∀ L a L', s.linear.Reps L → cutFirst 0 (roundPage (k.request size)) L = some (a, L') →
        (∀ j < pages size, Canonical (k.base a + j * pageSize)) ∧
        ∀ log u, Maps fuel s.pg (k.base a) log u → log.length = pages size →
          ∀ m ∈ log, m.code = codeOk
  | .free _ => True

/-- The linear range before the first call: the holes do not overlap and
nothing in them is mapped. -/
structure Start (s : State) : Prop where
  inv : ∃ live H M L, Inv s live H M L ∧ (∀ x, cover L x ≤ 1) ∧
    ∀ q ∈ L, ∀ x ∈ q, s.pg.translation x = 0

variable {fuel size p : Nat} {s t : State} {k : Kind} {live H M L L' : List Range}

/-! ## The calls -/

/-- Without a page the loop returns in its first round: from a later one
`free_linear` would not. -/
theorem allocVmLoop_false {n addr phsize : Nat}
    (h : allocVmLoop fuel size n s addr phsize = .ok (false, t)) (hL : s.linear.Reps L)
    (hmod : size % pageSize ≠ 0) (hsize : size + 2 * pageSize < 2 ^ 64) :
    phsize = 0 ∧ ∃ phys, Phymem.allocPhyPage fuel s.phys = .ok (0, phys) ∧ t = s.setPhys phys := by
  induction n generalizing s addr phsize with
  | zero => cases h
  | succ n ih =>
    rcases allocVmLoop_round h with
      ⟨-, hall, -⟩ | ⟨phys, hpage, -, ⟨hph, rfl⟩ | ⟨s₁, hfree, hback⟩⟩ |
        ⟨pg, phys, code, u, hin, -, -, -, h⟩
    · cases hall
    · exact ⟨hph, phys, hpage, rfl⟩
    · have hlin : s₁.linear.Reps L := by
        rw [freeVmPage_linear hfree]
        exact hL
      exact absurd (freeLinear_cases hlin hback).1 hmod
    · have hnext := (ih h hL).1
      simp only [pageSize] at hnext hsize hin
      omega

/-- **A call that returns**: it takes at most the range and returns 0, or
it maps the pages of the block. -/
theorem alloc_cases (hi : Inv s live H M L) (hmod : size % pageSize ≠ 0)
    (hsize : size + 2 * pageSize < 2 ^ 64) (h : k.alloc fuel s size = .ok (p, t)) :
    (p = 0 ∧ ∃ L', t.linear.Reps L' ∧
      (L' = L ∨ ∃ a, cutFirst 0 (roundPage (k.request size)) L = some (a, L')) ∧
      (t.pg = s.pg ∨
        ∃ phys, Phymem.allocPhyPage fuel s.phys = .ok (0, phys) ∧ t.pg = s.pg.setPhys phys)) ∨
    ∃ a L' log, a ≠ 0 ∧ cutFirst 0 (roundPage (k.request size)) L = some (a, L') ∧
      t.linear.Reps L' ∧ p = k.base a ∧ Maps fuel s.pg p log t.pg ∧ log.length = pages size := by
  rw [Kind.alloc_eq] at h
  obtain ⟨⟨a, s₁⟩, hlin, h⟩ := bind_eq_ok.mp h
  dsimp only at h
  obtain ⟨hpg, L', hreps, hcut⟩ := allocLinear_spec hi.linear hlin
  split at h
  next =>
    cases h
    refine .inl ⟨rfl, L', hreps, hcut.imp And.right fun hc => ⟨_, hc⟩, .inl hpg⟩
  next ha =>
    have hcut' := hcut.resolve_left fun h0 => ha h0.1
    obtain ⟨⟨all, s₂⟩, hloop, h⟩ := bind_eq_ok.mp h
    cases all with
    | false =>
      cases h
      obtain ⟨-, phys, hpage, rfl⟩ := allocVmLoop_false hloop hreps hmod hsize
      refine .inl ⟨rfl, L', hreps, .inr ⟨a, hcut'⟩, .inr ⟨phys, ?_, ?_⟩⟩
      · rw [State.phys, hpg] at hpage
        exact hpage
      · show s₁.pg.setPhys phys = _
        rw [hpg]
    | true =>
      cases h
      obtain ⟨-, hlin', log, hmaps, hcount⟩ := allocVmLoop_log hloop
      rw [hpg] at hmaps
      rw [← hlin'] at hreps
      exact .inr ⟨a, L', log, ha, hcut', hreps, rfl, hmaps, hcount.trans (pages_rest hmod).symm⟩

theorem free_whole {b : Block} (hL : s.linear.Reps L)
    (h : b.kind.free fuel s b.addr b.size = .ok t) : b.size % pageSize = 0 := by
  obtain ⟨kind, addr, size⟩ := b
  cases kind with
  | plain =>
    obtain ⟨s₁, hfree, hback⟩ := bind_eq_ok.mp h
    exact (freeLinear_cases (by rw [freeVmPage_linear hfree]; exact hL) hback).1
  | stack =>
    obtain ⟨s₁, hfree, hback⟩ := bind_eq_ok.mp h
    have hmod := (freeLinear_cases (L := L) (by rw [freeVmPage_linear hfree]; exact hL) hback).1
    simp only [pageSize] at hmod ⊢
    omega

/-! ## The range of a block -/

def Block.whole (b : Block) : Range :=
  match b.kind with
  | .plain => b.body
  | .stack => ⟨b.addr - pageSize, pageSize + pages b.size * pageSize⟩

theorem round_stack (h : size + 2 * pageSize < 2 ^ 64) :
    roundPage ((size + pageSize) % 2 ^ 64) = pageSize + pages size * pageSize := by
  have hpages : pages (size + pageSize) = pages size + 1 := by
    simp only [pages, pageSize]
    omega
  rw [Nat.mod_eq_of_lt (by omega), roundPage_eq (by omega), hpages, Nat.succ_mul, Nat.add_comm]

theorem Inv.block {a : Nat} (hi : Inv s live H M L) (hsize : size + 2 * pageSize < 2 ^ 64)
    (hmod : size % pageSize ≠ 0) (hcut : cutFirst 0 (roundPage (k.request size)) L = some (a, L')) :
    (⟨k, k.base a, size⟩ : Block).whole = ⟨a, roundPage (k.request size)⟩ ∧
      k.base a % pageSize = 0 ∧ k.base a + pages size * pageSize ≤ 2 ^ 64 ∧
      a ≤ k.base a ∧ (k = .stack → k.base a = a + pageSize) := by
  obtain ⟨A, q, B, rfl, -, hle, rfl, -⟩ := cutFirst_some hcut
  obtain ⟨hal, hend⟩ := hi.whole q (by simp)
  have hpos : 1 ≤ pages size := by
    rw [pages_rest hmod]
    exact Nat.le_add_left 1 _
  cases k with
  | plain =>
    have hround : roundPage size = pages size * pageSize := roundPage_eq (by omega)
    rw [Kind.request, hround] at hle ⊢
    exact ⟨rfl, hal, by simp only [Kind.base]; omega, Nat.le_refl _, nofun⟩
  | stack =>
    have hround : roundPage (Kind.stack.request size) = pageSize + pages size * pageSize :=
      round_stack hsize
    have hmul : 1 * pageSize ≤ pages size * pageSize := Nat.mul_le_mul_right _ hpos
    rw [hround] at hle ⊢
    have hbase : Kind.stack.base q.addr = q.addr + pageSize := by
      rw [Kind.base]
      refine Nat.mod_eq_of_lt ?_
      simp only [pageSize] at *
      omega
    rw [hbase]
    refine ⟨?_, ?_, by omega, by omega, fun _ => rfl⟩
    · simp only [Block.whole, Nat.add_sub_cancel]
    · rw [Nat.add_mod_right]
      exact hal

theorem Inv.whole_cut {a r : Nat} (hi : Inv s live H M L) (hr : r % pageSize = 0)
    (hcut : cutFirst 0 r L = some (a, L')) :
    ∀ q ∈ L', q.addr % pageSize = 0 ∧ q.addr + q.size ≤ 2 ^ 64 := by
  intro q hq
  rcases mem_cutFirst hcut hq with hmem | ⟨q', hmem, hlt, rfl⟩
  · exact hi.whole q hmem
  · obtain ⟨hal, hend⟩ := hi.whole q' hmem
    simp only [pageSize] at *
    omega

theorem roundPage_mod (size : Nat) : roundPage size % pageSize = 0 := by
  rw [roundPage]
  split
  · simp only [pageSize]
    omega
  · rename_i h
    exact not_not.mp h

/-! ## The invariant -/

/-- Every address is free and unmapped, or in one block, and the pages of
the blocks are taken and distinct. -/
structure Safe (w : World) (live H M L : List Range) : Prop where
  inv : Inv w.vm live H M L
  sizes : ∀ b ∈ w.live, b.size % pageSize ≠ 0
  bound : ∀ b ∈ w.live, b.whole.addr + b.whole.size ≤ 2 ^ 64
  once : ∀ x, cover (w.live.map Block.whole) x + cover L x ≤ 1
  free : ∀ x, 0 < cover L x → w.vm.pg.translation x = 0
  below : ∀ b ∈ w.live, b.kind = .stack → b.below.size ≤ b.addr ∧
    ∀ x ∈ b.below, w.vm.pg.translation x = 0
  mapped : ∀ b ∈ w.live, ∀ x ∈ b.body,
    ∃ i, w.vm.phys.bit i = false ∧ w.vm.pg.translation x = pageSize * i ||| rwFlags
  separate : w.live.Pairwise fun b c =>
    ∀ x ∈ b.body, ∀ y ∈ c.body, w.vm.pg.translation x ≠ w.vm.pg.translation y

variable {w w' : World} {b : Block}

theorem Block.body_whole {x : Nat} (h : x ∈ b.body) (hk : b.kind = .stack → pageSize ≤ b.addr) :
    x ∈ b.whole := by
  obtain ⟨kind, addr, size⟩ := b
  cases kind with
  | plain => exact h
  | stack =>
    have hle := hk rfl
    simp only [Block.body, Block.whole, Range.mem_def] at *
    omega

theorem Block.below_whole {x : Nat} (h : x ∈ b.below) (hk : b.kind = .stack)
    (hle : pageSize ≤ b.addr) : x ∈ b.whole := by
  obtain ⟨kind, addr, size⟩ := b
  obtain rfl : kind = .stack := hk
  simp only [Block.below, Block.whole, Range.mem_def] at *
  omega

theorem Safe.not_free {x : Nat} (h : Safe w live H M L) (hb : b ∈ w.live) (hx : x ∈ b.whole) :
    cover L x = 0 := by
  have hle := has_le_cover (List.mem_map_of_mem (f := Block.whole) hb) x
  have hpos := Range.has_pos.mpr hx
  have := h.once x
  omega

theorem Safe.shrink {live' H' M' : List Range} (h : Safe w live H M L) (hi : Inv t live' H' M' L')
    (hcover : ∀ x, cover L' x ≤ cover L x) (htr : ∀ x, t.pg.translation x = w.vm.pg.translation x)
    (hbits : ∀ i, t.phys.bit i = true → w.vm.phys.bit i = true) :
    Safe ⟨t, w.live⟩ live' H' M' L' where
  inv := hi
  sizes := h.sizes
  bound := h.bound
  once x := Nat.le_trans (Nat.add_le_add_left (hcover x) _) (h.once x)
  free x hx := (htr x).trans (h.free x (Nat.lt_of_lt_of_le hx (hcover x)))
  below b hb hk := ⟨(h.below b hb hk).1, fun x hx => (htr x).trans ((h.below b hb hk).2 x hx)⟩
  mapped b hb x hx := by
    obtain ⟨i, hbit, hmap⟩ := h.mapped b hb x hx
    exact ⟨i, Bool.eq_false_iff.mpr fun hb => Bool.false_ne_true (hbit.symm.trans (hbits i hb)),
      (htr x).trans hmap⟩
  separate := h.separate.imp fun hsep x hx y hy heq =>
    hsep x hx y hy ((htr x).symm.trans (heq.trans (htr y)))

/-! ## A new block -/

theorem or_rwFlags (i : Nat) : pageSize * i ||| rwFlags = pageSize * i + 0x83 :=
  (Nat.two_pow_add_eq_or_of_lt (i := 21) (b := rwFlags) (by decide) i).symm

theorem or_rwFlags_inj {i j : Nat} (h : pageSize * i ||| rwFlags = pageSize * j ||| rwFlags) :
    i = j := by
  rw [or_rwFlags, or_rwFlags] at h
  exact Nat.eq_of_mul_eq_mul_left (by decide : 0 < pageSize) (Nat.add_right_cancel h)

/-- The pages of a block after its maps have succeeded. -/
structure Placed (s t : State) (r : Range) : Prop where
  bits : ∀ i, t.phys.bit i = true → s.phys.bit i = true
  mapped : ∀ x ∈ r, ∃ i, s.phys.bit i = true ∧ t.phys.bit i = false ∧
    t.pg.translation x = pageSize * i ||| rwFlags
  frame : ∀ x < 2 ^ 64, x ∉ r → t.pg.translation x = s.pg.translation x

theorem MapsTo.placed {log : List Mapping} {addr n : Nat} (h : MapsTo s.pg t.pg addr log)
    (hlen : log.length = n) (hal : addr % pageSize = 0) (hend : addr + n * pageSize ≤ 2 ^ 64)
    (hcan : ∀ j < n, Canonical (addr + j * pageSize)) (hok : ∀ m ∈ log, m.code = codeOk) :
    Placed s t ⟨addr, n * pageSize⟩ where
  bits := h.bits
  mapped x hx := by
    obtain ⟨j, hj, h₁, h₂⟩ := Range.exists_block hx
    have hfew := canonical_few hal hend hcan
    have hpal := page_aligned hal j
    have hm : log[j]? = some log[j] := List.getElem?_eq_getElem (hlen ▸ hj)
    obtain ⟨i, hpage, hbit, hgone⟩ := h.pages _ (List.mem_of_getElem? hm)
    refine ⟨i, hbit, hgone, ?_⟩
    rw [State.translation, if_pos (canonical_page (hcan j hj) hpal h₁ h₂),
      h.hit (by omega) x j _ hm (vpn_page hpal h₁ h₂), if_pos (hok _ (List.mem_of_getElem? hm)), hpage]
  frame x hx hout := by
    rw [State.translation, State.translation]
    split
    next hcx => exact MapsTo.frame h hlen hal hend hcan hcx hx hout
    next => rfl

/-- **A new block** whose range was free. -/
theorem Safe.add {live' H' : List Range} {B : Block} (h : Safe w live H M L)
    (hi : Inv t live' H' M L') (hmod : B.size % pageSize ≠ 0)
    (hguard : B.kind = .stack → pageSize ≤ B.addr)
    (hbound : B.whole.addr + B.whole.size ≤ 2 ^ 64)
    (hcov : ∀ x, cover L x = B.whole.has x + cover L' x) (hpl : Placed w.vm t B.body) :
    Safe ⟨t, B :: w.live⟩ live' H' M L' := by
  have hbody : ∀ x ∈ B.body, 0 < B.whole.has x := fun x hx =>
    Range.has_pos.mpr (Block.body_whole hx hguard)
  have hone : ∀ x, cover L x ≤ 1 := fun x => Nat.le_trans (Nat.le_add_left _ _) (h.once x)
  -- an address of an old block keeps its translation
  have hold : ∀ b ∈ w.live, ∀ x ∈ b.whole, t.pg.translation x = w.vm.pg.translation x := by
    intro b hb x hx
    refine hpl.frame x (Nat.lt_of_lt_of_le hx.2 (h.bound b hb)) fun hin => ?_
    have h₁ := hbody x hin
    have h₂ := h.not_free hb hx
    have h₃ := hcov x
    omega
  have hwhole : ∀ b ∈ w.live, ∀ x ∈ b.body, x ∈ b.whole := fun b hb x hx =>
    Block.body_whole hx fun hk => (h.below b hb hk).1
  refine ⟨hi, ?_, ?_, fun x => ?_, fun x hx => ?_, ?_, ?_, ?_⟩
  · exact List.forall_mem_cons.mpr ⟨hmod, h.sizes⟩
  · exact List.forall_mem_cons.mpr ⟨hbound, h.bound⟩
  · have h₁ := h.once x
    have h₂ := hcov x
    rw [List.map_cons, cover_cons]
    omega
  · obtain ⟨q, hq, hxq⟩ := cover_pos.mp hx
    rw [hpl.frame x (Nat.lt_of_lt_of_le hxq.2 (hi.whole q hq).2) fun hin => ?_]
    · refine h.free x ?_
      have h₂ := hcov x
      omega
    · have h₁ := hbody x hin
      have h₂ := hcov x
      have h₃ := hone x
      omega
  · refine List.forall_mem_cons.mpr ⟨fun hk => ⟨hguard hk, fun x hx => ?_⟩, fun b hb hk => ?_⟩
    · have hin := Block.below_whole hx hk (hguard hk)
      rw [hpl.frame x (Nat.lt_of_lt_of_le hin.2 hbound) fun hb => ?_]
      · refine h.free x ?_
        have h₁ := Range.has_pos.mpr hin
        have h₂ := hcov x
        omega
      · have hle := hguard hk
        simp only [Block.below, Block.body, Range.mem_def] at hx hb
        omega
    · obtain ⟨hle, hz⟩ := h.below b hb hk
      exact ⟨hle, fun x hx => (hold b hb x (Block.below_whole hx hk hle)).trans (hz x hx)⟩
  · refine List.forall_mem_cons.mpr ⟨fun x hx => ?_, fun b hb x hx => ?_⟩
    · obtain ⟨i, -, hgone, hmap⟩ := hpl.mapped x hx
      exact ⟨i, hgone, hmap⟩
    · obtain ⟨i, hbit, hmap⟩ := h.mapped b hb x hx
      refine ⟨i, Bool.eq_false_iff.mpr fun hb' => ?_, (hold b hb x (hwhole b hb x hx)).trans hmap⟩
      exact Bool.false_ne_true (hbit.symm.trans (hpl.bits i hb'))
  · refine List.pairwise_cons.mpr ⟨fun c hc x hx y hy heq => ?_, ?_⟩
    · -- the new page was free, the old one was not
      obtain ⟨i, hbit, -, hmap⟩ := hpl.mapped x hx
      obtain ⟨j, hbit', hmap'⟩ := h.mapped c hc y hy
      rw [hmap, hold c hc y (hwhole c hc y hy), hmap'] at heq
      rw [or_rwFlags_inj heq, hbit'] at hbit
      cases hbit
    · refine h.separate.imp_of_mem fun hb hc hsep x hx y hy => ?_
      rw [hold _ hb x (hwhole _ hb x hx), hold _ hc y (hwhole _ hc y hy)]
      exact hsep x hx y hy

/-! ## Runs -/

theorem initVm_start {pg : Pgtable.State} {addr : Nat} (hpg : Pgtable.Inv pg live H M)
    (hend : addr + size ≤ 2 ^ 64)
    (hfree : ∀ x ∈ (⟨addr, size⟩ : Range), Canonical x → pg.entry x = 0)
    (h : initVm pg addr size = .ok s) : Start s := by
  obtain ⟨-, hreps, hal, heq⟩ := freeLinear_cases (reps_init (by decide)) h
  refine ⟨live, H, M, [⟨addr, size⟩], ⟨heq ▸ hpg, hreps, fun q hq => ?_⟩, fun x => ?_,
    fun q hq x hx => ?_⟩
  · rw [List.mem_singleton.mp hq]
    exact ⟨hal, hend⟩
  · rw [cover_cons, cover_nil]
    exact Range.has_le _ x
  · rw [List.mem_singleton.mp hq] at hx
    rw [State.translation, heq]
    split
    next hcan => exact hfree x hx hcan
    next => rfl

theorem Start.safe (h : Start s) : ∃ live H M L, Safe ⟨s, []⟩ live H M L := by
  obtain ⟨live, H, M, L, hi, hone, hfree⟩ := h.inv
  refine ⟨live, H, M, L, hi, nofun, nofun, fun x => ?_, fun x hx => ?_, nofun, nofun, .nil⟩
  · rw [List.map_nil, cover_nil, Nat.zero_add]
    exact hone x
  · obtain ⟨q, hq, hxq⟩ := cover_pos.mp hx
    exact hfree q hq x hxq

theorem Safe.alloc (h : Safe w live H M L) (hf : Fine fuel w.vm (.alloc k size))
    (hs : k.alloc fuel w.vm size = .ok (p, t)) :
    ∃ live' H' L', Safe ⟨t, if p = 0 then w.live else ⟨k, p, size⟩ :: w.live⟩ live' H' M L' := by
  obtain ⟨hmod, hsize, hfine⟩ := hf
  have hi := h.inv
  rcases alloc_cases hi hmod hsize hs with
    ⟨rfl, L', hreps, hcut, hpg⟩ | ⟨a, L', log, ha, hcut, hreps, rfl, hmaps, hlen⟩
  · rw [if_pos rfl]
    have hwhole : (∀ q ∈ L', q.addr % pageSize = 0 ∧ q.addr + q.size ≤ 2 ^ 64) ∧
        ∀ x, cover L' x ≤ cover L x := by
      rcases hcut with rfl | ⟨a, hcut⟩
      · exact ⟨hi.whole, fun _ => Nat.le_refl _⟩
      · refine ⟨hi.whole_cut (roundPage_mod _) hcut, fun x => ?_⟩
        rw [cover_cutFirst_zero hcut x]
        exact Nat.le_add_left _ _
    rcases hpg with hpg | ⟨phys, hpage, hpg⟩
    · refine ⟨live, H, L', h.shrink ⟨hpg ▸ hi.pg, hreps, hwhole.1⟩ hwhole.2 (fun x => ?_) fun i => ?_⟩
      · rw [State.translation, State.translation, hpg]
      · rw [State.phys, State.phys, hpg]
        exact id
    · have hpg' : Pgtable.Inv (w.vm.pg.setPhys phys) live H M :=
        ⟨hi.pg.heap.allocPage hpage, hi.pg.tree, hi.pg.owned⟩
      refine ⟨live, H, L', h.shrink ⟨hpg ▸ hpg', hreps, hwhole.1⟩ hwhole.2 (fun x => ?_) fun i => ?_⟩
      · rw [State.translation, State.translation, hpg]
        rfl
      · rw [State.phys, hpg]
        exact fun hb => (bits_of_none hi.pg.heap.phys hpage i).symm.trans hb
  · obtain ⟨hwhole, hal, hend, hle, hstack⟩ := hi.block hsize hmod hcut
    obtain ⟨hcan, hok⟩ := hfine L a L' hi.linear hcut
    obtain ⟨⟨live', H', hpg, -⟩, hto⟩ := hmaps.mapsTo hi.pg
    rw [if_neg (by omega)]
    refine ⟨live', H', L', h.add ⟨hpg, hreps, hi.whole_cut (roundPage_mod _) hcut⟩ hmod ?_ ?_ ?_
      (MapsTo.placed hto hlen hal hend hcan (hok log t.pg hmaps hlen))⟩
    · intro hk
      rw [hstack hk]
      exact Nat.le_add_left _ _
    · rw [hwhole]
      obtain ⟨A, q, B, rfl, -, hfit, rfl, -⟩ := cutFirst_some hcut
      have := (hi.whole q (by simp)).2
      dsimp only
      omega
    · intro x
      rw [hwhole]
      exact cover_cutFirst_zero hcut x

theorem Safe.step {op : Op} (h : Safe w live H M L) (hf : Fine fuel w.vm op)
    (hs : Step fuel w op w') : ∃ live' H' M' L', Safe w' live' H' M' L' := by
  cases op with
  | alloc k size =>
    obtain ⟨p, s, hs, rfl⟩ := hs
    obtain ⟨live', H', L', hsafe⟩ := h.alloc hf hs
    exact ⟨live', H', M, L', hsafe⟩
  | free b =>
    obtain ⟨hb, s, hs, rfl⟩ := hs
    exact absurd (free_whole h.inv.linear hs) (h.sizes b hb)

/-! ## What the blocks map -/

theorem target_of_zero {x : Nat} (h : s.pg.translation x = 0) : s.target x = none := by
  rw [State.target, h]
  rfl

theorem target_of_page {x i : Nat} (h : s.pg.translation x = pageSize * i ||| rwFlags) :
    s.target x = some i := by
  have hpresent : (pageSize * i + 0x83) % 2 = 1 := by
    simp only [pageSize]
    omega
  have hpage : (pageSize * i + 0x83) / pageSize = i := by
    simp only [pageSize]
    omega
  rw [State.target, h, or_rwFlags, if_pos hpresent, hpage]

theorem Safe.guarded (h : Safe w live H M L) : Guarded w where
  below b hb hk x hx := target_of_zero ((h.below b hb hk).2 x hx)
  mapped b hb _ x hx := by
    obtain ⟨i, -, hmap⟩ := h.mapped b hb x hx
    rw [target_of_page hmap]
    rfl
  separate := h.separate.imp_of_mem fun {b c} hb hc hsep _ x hx y hy i hi hj => by
    obtain ⟨i', -, hmap⟩ := h.mapped b hb x hx
    obtain ⟨j', -, hmap'⟩ := h.mapped c hc y hy
    rw [target_of_page hmap] at hi
    rw [target_of_page hmap'] at hj
    refine hsep x hx y hy ?_
    rw [hmap, hmap', Option.some.inj hi, Option.some.inj hj]

/-- **Stacks are guarded** in every run whose calls can do no harm. -/
theorem stacks_guarded {tr : List (Taken World Op)} (hb : Start s)
    (h : Trace (Step fuel) ⟨s, []⟩ tr w) (hf : ∀ x ∈ tr, Fine fuel x.pre.vm x.label) :
    Guarded w ∧ ∀ x ∈ tr, Guarded x.pre ∧ Guarded x.post := by
  obtain ⟨hlast, hall⟩ := h.invariant (fun w => ∃ live H M L, Safe w live H M L)
    (fun w op => Fine fuel w.vm op) (fun ⟨_, _, _, _, hi⟩ hg hs => hi.step hg hs) hb.safe hf
  refine ⟨?_, fun x hx => ⟨?_, ?_⟩⟩
  · obtain ⟨_, _, _, _, hsafe⟩ := hlast
    exact hsafe.guarded
  · obtain ⟨_, _, _, _, hsafe⟩ := (hall x hx).1
    exact hsafe.guarded
  · obtain ⟨_, _, _, _, hsafe⟩ := (hall x hx).2
    exact hsafe.guarded

/-- The machine of `threePages`, with a linear hole of four pages. -/
def room : State := withPages threePages 0x40400000 0x800000

theorem room_inv : Inv room
    [⟨0x1000, Radix.page⟩, ⟨0x2000, Radix.page⟩, ⟨0x3000, Radix.page⟩] [] []
    [⟨0x40400000, 0x800000⟩] :=
  withPages_inv threePages_inv (by decide) (by decide)

theorem room_free {x : Nat} (hx : x ∈ (⟨0x40400000, 0x800000⟩ : Range)) :
    room.pg.entry x = 0 := by
  obtain ⟨j, hj, h₁, h₂⟩ := Range.exists_block (w := pageSize) (n := 4) hx
  have hpal := page_aligned (a := 0x40400000) (by decide) j
  have hroot : room.pg.pml4 ≠ 0 := by decide
  have hzero : ∀ j < 4, room.pg.entry (0x40400000 + j * pageSize) = 0 := by decide
  rw [entry_congr hroot (vpn_page hpal h₁ h₂), hzero j hj]

theorem room_start : Start room :=
  initVm_start room_inv.pg (by decide) (fun _ hx _ => room_free hx) rfl

/-- A stack of 4K: one page is mapped above the guard page. -/
theorem stacks_guarded_small :
    ∃ tr w, Trace (Step 8) ⟨room, []⟩ tr w ∧ w.live = [⟨.stack, 0x40600000, 0x1000⟩] ∧
      Guarded w := by
  have htr : Trace (Step 8) ⟨room, []⟩ _ _ :=
    .step (a := Op.alloc .stack 0x1000) ⟨0x40600000, _, rfl, rfl⟩ (.done _)
  refine ⟨_, _, htr, rfl, (stacks_guarded room_start htr ?_).1⟩
  refine List.forall_mem_cons.mpr ⟨⟨by decide, by decide, fun L a L' hL hcut => ?_⟩,
    List.forall_mem_nil _⟩
  obtain rfl := hL.unique room_inv.linear
  cases hcut
  refine ⟨fun j hj => ?_, fun log u hmaps hlen => ?_⟩
  · obtain rfl : j = 0 := by
      simp only [pages, pageSize] at hj
      omega
    decide
  · refine hmaps.codes_of_directories room_inv.pg ?_
    rw [hlen]
    decide

/-- **A mapped guard page.** `alloc_vm` of one page maps two; the stack that
is allocated next has the second one below it. -/
theorem stacks_guarded_not :
    ∃ tr w, Trace (Step 8) ⟨room, []⟩ tr w ∧
      tr.map Taken.label = [.alloc .plain 0x200000, .alloc .stack 0x1000] ∧
      w.live = [⟨.stack, 0x40800000, 0x1000⟩, ⟨.plain, 0x40400000, 0x200000⟩] ∧
      w.vm.target 0x40600000 = some 6 ∧ ¬ Guarded w := by
  have htr : Trace (Step 8) ⟨room, []⟩ _ _ :=
    .step (a := Op.alloc .plain 0x200000) ⟨0x40400000, _, rfl, rfl⟩
      (.step (a := Op.alloc .stack 0x1000) ⟨0x40800000, _, rfl, rfl⟩ (.done _))
  refine ⟨_, _, htr, rfl, rfl, ?_, fun hg => ?_⟩
  · decide +kernel
  · have hbelow := hg.below ⟨.stack, 0x40800000, 0x1000⟩ List.mem_cons_self rfl 0x40600000
      (by decide)
    exact absurd hbelow (by decide +kernel)

end Yaos.Vm
