import Yaos.Lib.Run
import Yaos.Lib.TailQueue
import Yaos.Virtio.Model
import Mathlib.Data.List.FinRange

/-!
# Packets of the network driver (`module/drivers/net/virtio/virtio_net.c`)

`BUF_PACKETS` packets go round between two lists and the RX and TX queues of
the device. The lists are tail queues through the `next` field of the packets.
A virtqueue is what the driver relies on: a request that was submitted is
returned once, with its cookie, in whatever order the device likes
(`queue_stands` shows it of the queues of `virtio.c`).

The two functions are loops; the device works while they run. A state
therefore has a program counter, and a step is one round of a loop (or its
end), the call of a function, or the completion of a request.

Left out: the contents of headers and packets, the statistics and the
messages. Nothing in the source submits to the TX queue.
-/

namespace Yaos.VirtioNet

open Yaos.Lib Yaos.Virtio

/-- `BUF_PACKETS`. -/
def bufPackets : Nat := 64

/-- `MAX_PACK_SIZE`. -/
def maxPackSize : Nat := 1514

/-- `sizeof(struct virtio_net_hdr)`. -/
def hdrSize : Nat := 10

/-- A pointer to one of `packets`. -/
abbrev Pkt := Fin bufPackets

/-- `struct packet`, without the link. -/
structure Packet where
  idx : Nat
  vhdr : Nat
  phdr : Nat
  vdata : Nat
  pdata : Nat
  len : Nat

structure Buffers where
  hdrsVir : Nat
  hdrsPhys : Nat
  dataVir : Nat
  dataPhys : Nat

/-! ## Virtqueues -/

/-- A request with the pointer that identifies it. -/
structure Request where
  cookie : Pkt
  bufs : List AddrSize

/-- A queue: what the device has, and what it has returned. -/
structure Vq where
  submitted : List Request
  returned : List (Pkt × Nat)

/-- `virtio_to_queue`. -/
def Vq.toQueue (q : Vq) (bufs : List AddrSize) (p : Pkt) : Vq :=
  { q with submitted := q.submitted ++ [⟨p, bufs⟩] }

/-- `virtio_from_queue`: `none` for `-1`. -/
def Vq.fromQueue (q : Vq) : Option ((Pkt × Nat) × Vq) :=
  match q.returned with
  | [] => none
  | e :: rest => some (e, { q with returned := rest })

def Vq.cookies (q : Vq) : List Pkt := q.submitted.map Request.cookie ++ q.returned.map Prod.fst

/-- The device returns one of the requests it has. -/
def Vq.Completes (q q' : Vq) : Prop :=
  ∃ a r b len, q.submitted = a ++ r :: b ∧ q' = ⟨a ++ b, q.returned ++ [(r.cookie, len)]⟩

/-! ## The driver -/

/-- Where the driver is: in none of the functions, in one of the two loops of
`virtio_net_check_queues`, or in that of `virtio_net_refill_rx_queue`. -/
inductive Pc where
  | idle
  | checkRx
  | checkTx
  | refill
  deriving DecidableEq

structure State where
  packets : Pkt → Packet
  next : Pkt → Option Pkt
  freeList : TailQueue Pkt
  recvList : TailQueue Pkt
  inRx : Int
  rx : Vq
  tx : Vq
  pc : Pc

/-- One round of `virtio_net_init_queues`. -/
def initOne (b : Buffers) (s : State) (i : Pkt) : State :=
  let link := s.freeList.insertHead s.next i
  { s with
    packets := Function.update s.packets i { s.packets i with
      idx := i
      vhdr := (b.hdrsVir + i * hdrSize) % 2 ^ 64
      phdr := (b.hdrsPhys + i * hdrSize) % 2 ^ 64
      vdata := (b.dataVir + i * maxPackSize) % 2 ^ 64
      pdata := (b.dataPhys + i * maxPackSize) % 2 ^ 64 }
    next := link.1
    freeList := link.2 }

/-- `virtio_net_init_queues`. -/
def virtioNetInitQueues (b : Buffers) (s : State) : State :=
  (List.finRange bufPackets).foldl (initOne b) { s with freeList := .empty, recvList := .empty }

/-- A round of the first loop of `virtio_net_check_queues`. -/
def checkRxOne (s : State) : State :=
  match s.rx.fromQueue with
  | none => { s with pc := .checkTx }
  | some ((p, len), rx) =>
      let link := s.recvList.append s.next p
      { s with
        packets := Function.update s.packets p { s.packets p with len := len }
        next := link.1
        recvList := link.2
        rx := rx
        inRx := s.inRx - 1 }

def checkTxOne (s : State) : State :=
  match s.tx.fromQueue with
  | none => { s with pc := .idle }
  | some ((p, _), tx) =>
      let link := s.freeList.insertHead s.next p
      { s with next := link.1, freeList := link.2, tx := tx }

/-- The two buffers of a packet; the low bit asks for `WRITE`. -/
def Packet.bufs (p : Packet) : List AddrSize :=
  [⟨p.phdr ||| 1, hdrSize⟩, ⟨p.pdata ||| 1, maxPackSize⟩]

/-- A round of the loop of `virtio_net_refill_rx_queue`. -/
def refillOne (s : State) : Outcome State :=
  if s.inRx < bufPackets / 2 then
    match s.freeList.head with
    | none => .ok { s with pc := .idle }
    | some p => do
        check ((s.packets p).phdr % 2 = 0)
        check ((s.packets p).pdata % 2 = 0)
        .ok { s with
          freeList := s.freeList.removeHead s.next p
          rx := s.rx.toQueue (s.packets p).bufs p
          inRx := s.inRx + 1 }
  else .ok { s with pc := .idle }

def advance (s : State) : Outcome State :=
  match s.pc with
  | .idle => .ok s
  | .checkRx => .ok (checkRxOne s)
  | .checkTx => .ok (checkTxOne s)
  | .refill => refillOne s

/-- What can happen: a call of one of the functions, a round of the loop that
is running, a completion. -/
inductive Event where
  | check
  | refill
  | round
  | rxDone
  | txDone

def Step (s : State) (e : Event) (t : State) : Prop :=
  match e with
  | .check => s.pc = .idle ∧ t = { s with pc := .checkRx }
  | .refill => s.pc = .idle ∧ t = { s with pc := .refill }
  | .round => advance s = .ok t
  | .rxDone => ∃ rx, s.rx.Completes rx ∧ t = { s with rx := rx }
  | .txDone => ∃ tx, s.tx.Completes tx ∧ t = { s with tx := tx }

end Yaos.VirtioNet
