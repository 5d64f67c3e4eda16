import Mathlib.Data.BitVec

/-!
# Feature negotiation (`libs/libvirtio/virtio.c`, `drivers/virtio.h`)

The host offers a word of features, the driver writes back those it uses.
`virtio_get_config_bit` masks the offset of the register instead of the word
that it reads, so it reads the word of the host (offset 0), or for bit 2 the
word of the driver (offset 4), and asks whether that is zero.

A device is its registers of 32 bits; `other` are the ones that negotiation
does not touch. The two kinds of access to it (I/O port or memory) do the same.
-/

namespace Yaos.Virtio.Features

/-- The registers of a device, and what `struct virtio_device` keeps. -/
structure Dev where
  hostFeatures : BitVec 32
  guestFeatures : BitVec 32
  other : BitVec 32 → BitVec 32
  capIndirectBuf : Bool
  capEventIdx : Bool

/-- `VIRTIO_PCI_HOST_FEATURES`. -/
def pciHostFeatures : BitVec 32 := 0

/-- `VIRTIO_PCI_GUEST_FEATURES`. -/
def pciGuestFeatures : BitVec 32 := 4

/-- `VIRTIO_RING_F_INDIRECT_DESC`. -/
def ringFIndirectDesc : Nat := 28

/-- `VIRTIO_RING_F_EVENT_IDX`. -/
def ringFEventIdx : Nat := 29

/-- `1 << bit`. -/
def bitAt (bit : Nat) : BitVec 32 := 1#32 <<< bit

/-- `virtio_conf_readl`. -/
def Dev.confReadl (d : Dev) (offset : BitVec 32) : BitVec 32 :=
  if offset = pciHostFeatures then d.hostFeatures
  else if offset = pciGuestFeatures then d.guestFeatures
  else d.other offset

/-- `virtio_set_guest_features`. -/
def Dev.setGuestFeatures (d : Dev) (features : BitVec 32) : Dev := { d with guestFeatures := features }

/-- `virtio_get_driver_features`. -/
def driverFeatures : BitVec 32 := bitAt ringFIndirectDesc ||| bitAt ringFEventIdx

/-- `virtio_setup_features`. -/
def setupFeatures (d : Dev) : Dev :=
  let subset := d.confReadl pciHostFeatures &&& driverFeatures
  let d := if subset &&& bitAt ringFIndirectDesc ≠ 0 then { d with capIndirectBuf := true } else d
  let d := if subset &&& bitAt ringFEventIdx ≠ 0 then { d with capEventIdx := true } else d
  d.setGuestFeatures subset

/-- `virtio_get_config_bit`. -/
def Dev.getConfigBit (d : Dev) (offset : BitVec 32) (bit : Nat) : Bool :=
  d.confReadl (offset &&& bitAt bit) ≠ 0

/-- `virtio_get_guest_feature_bit`. -/
def Dev.getGuestFeatureBit (d : Dev) (bit : Nat) : Bool := d.getConfigBit pciGuestFeatures bit

/-- The features of a network device that the driver asks for: the numbers
`VIRTIO_NET_F_..`. -/
inductive NetFeature where
  | csum
  | guestCsum
  | guestTso4
  | guestEcn
  | guestUfo
  | hostTso4
  | hostEcn
  | mrgRxbuf
  | status
  | ctrlVq
  deriving DecidableEq

def NetFeature.bit : NetFeature → Nat
  | .csum => 0
  | .guestCsum => 1
  | .guestTso4 => 7
  | .guestEcn => 9
  | .guestUfo => 10
  | .hostTso4 => 11
  | .hostEcn => 13
  | .mrgRxbuf => 15
  | .status => 16
  | .ctrlVq => 17

/-- `virtio_net_read_config`: the flags of `struct virtio_net`, one for each
feature. -/
def readConfig (d : Dev) : NetFeature → Bool := fun f => d.getGuestFeatureBit f.bit

/-- The number of queues that `init_virtio_net` asks for. -/
def netQueues (flags : NetFeature → Bool) : Nat := if flags .ctrlVq then 2 + 1 else 2

/-- The features that a host of these features and the driver agree on. -/
def negotiated (host : BitVec 32) (bit : Nat) : Bool := (host &&& driverFeatures).getLsbD bit

/-- What is read after negotiation is what was negotiated. -/
structure Agrees (d : Dev) (host : BitVec 32) : Prop where
  bits : ∀ b, b < 32 → d.getGuestFeatureBit b = negotiated host b
  flags : ∀ f, readConfig d f = true → negotiated host f.bit = true
  queues : netQueues (readConfig d) = 3 → negotiated host NetFeature.ctrlVq.bit = true

/-! ## What is read -/

theorem guest_and_bitAt {bit : Nat} (h : bit < 32) :
    pciGuestFeatures &&& bitAt bit = if bit = 2 then pciGuestFeatures else pciHostFeatures := by
  have hall : ∀ b : Fin 32, pciGuestFeatures &&& bitAt b =
      if (b : Nat) = 2 then pciGuestFeatures else pciHostFeatures := by decide
  exact hall ⟨bit, h⟩

theorem getGuestFeatureBit_eq (d : Dev) {bit : Nat} (h : bit < 32) :
    d.getGuestFeatureBit bit = decide ((if bit = 2 then d.guestFeatures else d.hostFeatures) ≠ 0) := by
  rw [Dev.getGuestFeatureBit, Dev.getConfigBit, guest_and_bitAt h]
  split <;> rfl

theorem setupFeatures_regs (d : Dev) :
    (setupFeatures d).hostFeatures = d.hostFeatures ∧
      (setupFeatures d).guestFeatures = d.hostFeatures &&& driverFeatures := by
  have hread : d.confReadl pciHostFeatures = d.hostFeatures := rfl
  unfold setupFeatures
  simp only [hread]
  constructor
  · split <;> split <;> rfl
  · rfl

theorem negotiated_csum (host : BitVec 32) : negotiated host NetFeature.csum.bit = false := by
  have hdriver : driverFeatures.getLsbD 0 = false := by decide
  rw [negotiated, NetFeature.bit, BitVec.getLsbD_and, hdriver, Bool.and_false]

/-- **The bits agree exactly if the host offers nothing.** -/
theorem agrees_iff (d : Dev) : Agrees (setupFeatures d) d.hostFeatures ↔ d.hostFeatures = 0 := by
  obtain ⟨hhost, hguest⟩ := setupFeatures_regs d
  constructor
  · intro h
    by_contra hne
    -- the first bit is not the driver's, and reads as set
    have hbit := h.bits 0 (by decide)
    rw [getGuestFeatureBit_eq _ (by decide), if_neg (by decide), hhost,
      show negotiated d.hostFeatures 0 = false from negotiated_csum d.hostFeatures] at hbit
    exact hne (by simpa using hbit)
  · intro h
    have hread : ∀ {b}, b < 32 → (setupFeatures d).getGuestFeatureBit b = false := by
      intro b hb
      rw [getGuestFeatureBit_eq _ hb, hhost, hguest, h]
      simp
    have hflag : ∀ f : NetFeature, readConfig (setupFeatures d) f = false := by
      intro f
      refine hread ?_
      cases f <;> decide
    refine ⟨?_, ?_, ?_⟩
    · intro b hb
      rw [hread hb, h, negotiated]
      simp
    · intro f hf
      rw [hflag f] at hf
      cases hf
    · intro hq
      rw [netQueues, hflag .ctrlVq] at hq
      cases hq

/-- A host that offers the checksum feature only. -/
def csumHost : Dev := ⟨1, 0, fun _ => 0, false, false⟩

/-- Nothing was negotiated, but the control queue is asked for, and all flags
are set. -/
theorem csumHost_disagrees :
    negotiated csumHost.hostFeatures NetFeature.ctrlVq.bit = false ∧
      (setupFeatures csumHost).getGuestFeatureBit NetFeature.ctrlVq.bit = true ∧
      netQueues (readConfig (setupFeatures csumHost)) = 3 ∧
      ¬ Agrees (setupFeatures csumHost) csumHost.hostFeatures := by
  have hbit : negotiated csumHost.hostFeatures NetFeature.ctrlVq.bit = false := by decide
  have hread : (setupFeatures csumHost).getGuestFeatureBit NetFeature.ctrlVq.bit = true := by decide
  refine ⟨hbit, hread, by decide, ?_⟩
  intro h
  have := h.flags .ctrlVq hread
  rw [hbit] at this
  cases this

end Yaos.Virtio.Features
