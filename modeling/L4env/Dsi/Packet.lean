import L4env.Util.Links

/-!
# Packets of DSI

A sender and a receiver share a control area with a ring of packets and an array of scatter gather
elements, from which the lists of all packets are made (`lib/src/packet.c`, `lib/src/dataspace.c`). The
two components run at the same time. A step is a call, but that the two loops on elements that the
other component may work on as well are done round by round: the search for an unused element, and the
release of the elements of a packet. A component that waits for a packet goes on once the other one has
put up the semaphore.

`holds`, `serial`, `gets`, `added` and `read` are no data of the library: which packets a component has
got and not committed, the number of its last `dsi_packet_get` for each packet, and by that number the
areas that were added to or read from a packet. The number, the expiry time and the flags of a packet,
its data and its unmapping do not bear on the lists and are left out, and so is the end of the stream
by `dsi_packet_get_abort`.
-/

namespace L4env.Dsi

/-- `DSI_SG_ELEM_LAST` -/
def sgElemLast : Nat := 0xffffffff

def sgElemUnused : BitVec 32 := 0x00000000

def sgElemUsed : BitVec 32 := 0x80000000

def sgElemUserMask : BitVec 32 := 0x0fffffff

def dataAreaGap : BitVec 32 := 0x00000001

def dataAreaEos : BitVec 32 := 0x00000004

def dataAreaPhys : BitVec 32 := 0x00000008

structure StreamCfg where
  numPackets : Nat
  maxSg : Nat

/-- `__get_ctrl_ds_size`, of which the code keeps 32 bits. The header has 16 bytes, a packet has 28 and
an element has 16. -/
def StreamCfg.ctrlDsSize (cfg : StreamCfg) : Nat :=
  16 + cfg.numPackets * 28 + cfg.numPackets * cfg.maxSg * 16

/-- `dsi_packet_t` -/
structure Packet where
  txSem : Int
  rxSem : Int
  sgLen : Nat
  sgList : Nat
  sgIdx : Nat

/-- `dsi_sg_elem_t` -/
structure SgElem where
  addr : BitVec 32
  size : BitVec 32
  flags : BitVec 32
  next : Nat

inductive AreaKind where
  | data
  | gap
  | eos
  | phys
  deriving DecidableEq

/-- A data area: its offset in the data of the stream or its physical address, its size and its kind. -/
structure Area where
  kind : AreaKind
  addr : BitVec 32
  size : BitVec 32
  deriving DecidableEq

/-- What the work thread of the sender is doing. -/
inductive SendPc where
  | ready
  /-- in `dsi_down` for the next packet -/
  | waiting
  /-- in `__get_sg_elem` at the element `i`, to add an area to the packet `p` -/
  | searching (p : Nat) (offs size flags : BitVec 32) (i : Nat)
  deriving DecidableEq

/-- What the work thread of the receiver is doing. -/
inductive RecvPc where
  | ready
  | waiting
  /-- in `__commit_receive_packet` for the packet `p`, where `i` elements are released -/
  | releasing (p sgElem i : Nat)
  deriving DecidableEq

structure Sender where
  dataArea : BitVec 32
  dataSize : BitVec 32
  nextPacket : Nat
  nextSgElem : Nat
  pc : SendPc
  holds : Nat → Bool
  serial : Nat → Nat
  gets : Nat
  added : Nat → List Area

structure Receiver where
  dataArea : BitVec 32
  nextPacket : Nat
  pc : RecvPc
  holds : Nat → Bool
  serial : Nat → Nat
  gets : Nat
  read : Nat → List Area

/-- The control area and the sockets of the two components. -/
structure Stream where
  numPackets : Nat
  numSgElems : Nat
  maxSgLen : Nat
  packets : Nat → Packet
  sgLists : Nat → SgElem
  sender : Sender
  receiver : Receiver

/-- The calls of `Panic`. -/
inductive Panic where
  | noSgElem
  | corrupted
  deriving DecidableEq

namespace Stream

/-- `__init_ctrl_ds`, and the sockets of `dsi_socket_create` -/
def init (cfg : StreamCfg) (sendArea sendSize recvArea : BitVec 32) : Stream where
  numPackets := cfg.numPackets
  numSgElems := cfg.numPackets * cfg.maxSg % 4294967296
  maxSgLen := cfg.maxSg
  packets _ := { txSem := 1, rxSem := 0, sgLen := 0, sgList := 0, sgIdx := 0 }
  sgLists _ := { addr := 0, size := 0, flags := sgElemUnused, next := 0 }
  sender :=
    { dataArea := sendArea, dataSize := sendSize, nextPacket := 0, nextSgElem := 0, pc := .ready,
      holds := fun _ => false, serial := fun _ => 0, gets := 0, added := fun _ => [] }
  receiver :=
    { dataArea := recvArea, nextPacket := 0, pc := .ready, holds := fun _ => false,
      serial := fun _ => 0, gets := 0, read := fun _ => [] }

def setPacket (s : Stream) (p : Nat) (f : Packet → Packet) : Stream :=
  { s with packets := Function.update s.packets p (f (s.packets p)) }

def setElem (s : Stream) (e : Nat) (f : SgElem → SgElem) : Stream :=
  { s with sgLists := Function.update s.sgLists e (f (s.sgLists e)) }

/-! ## Sender -/

/-- `__get_send_packet` and `dsi_packet_get` with the semaphore of the next packet taken. -/
def gotSendPacket (s : Stream) : Stream :=
  let p := s.sender.nextPacket
  let s := s.setPacket p fun k => { k with sgLen := 0, sgList := sgElemLast, sgIdx := sgElemLast }
  { s with sender := { s.sender with
      nextPacket := (p + 1) % s.numPackets
      pc := .ready
      holds := Function.update s.sender.holds p true
      serial := Function.update s.sender.serial p s.sender.gets
      gets := s.sender.gets + 1 } }

/-- `dsi_packet_get` of the sender: `dsi_trylock`, and `dsi_down` for a blocking socket. -/
def sendGet (s : Stream) (block : Bool) : Stream :=
  let p := s.sender.nextPacket
  if (s.packets p).txSem ≤ 0 then
    if block then
      let s := s.setPacket p fun k => { k with txSem := k.txSem - 1 }
      { s with sender := { s.sender with pc := .waiting } }
    else s
  else (s.setPacket p fun k => { k with txSem := k.txSem - 1 }).gotSendPacket

/-- The kind of an area as `dsi_packet_get_data` reports it. -/
def kindOf (flags : BitVec 32) : AreaKind :=
  let flags := flags &&& (dataAreaGap ||| dataAreaEos ||| dataAreaPhys)
  if flags &&& dataAreaPhys ≠ 0 then .phys
  else if flags = 0 then .data
  else if flags &&& dataAreaGap ≠ 0 then .gap
  else .eos

/-- `dsi_packet_add_data` up to the search of an element. Without an effect if it returns an error. -/
def addData (s : Stream) (p : Nat) (addr size flags : BitVec 32) : Stream :=
  let search (offs : BitVec 32) : Stream :=
    { s with sender := { s.sender with pc := .searching p offs size flags s.sender.nextSgElem } }
  if s.maxSgLen ≤ (s.packets p).sgLen then s
  else if flags &&& dataAreaGap = 0 ∧ flags &&& dataAreaEos = 0 ∧ flags &&& dataAreaPhys = 0 then
    let offs := addr - s.sender.dataArea
    if s.sender.dataSize < offs ∨ s.sender.dataSize < offs + size ∨ size = 0 then s
    else search offs
  else if flags &&& dataAreaPhys ≠ 0 then search addr
  else search 0

/-- `dsi_packet_add_data` once the element `sgElem` is found. -/
def fillElem (s : Stream) (p : Nat) (offs size flags : BitVec 32) (sgElem : Nat) : Stream :=
  let s := s.setElem sgElem fun e =>
    { addr := offs, size, flags := e.flags ||| (flags &&& sgElemUserMask), next := sgElemLast }
  let s :=
    if (s.packets p).sgLen = 0 then
      s.setPacket p fun k => { k with sgList := sgElem, sgIdx := sgElem, sgLen := 1 }
    else
      let s := s.setElem (s.packets p).sgIdx fun e => { e with next := sgElem }
      s.setPacket p fun k => { k with sgIdx := sgElem, sgLen := k.sgLen + 1 }
  let k := s.sender.serial p
  { s with sender := { s.sender with
      pc := .ready
      added := Function.update s.sender.added k
        (s.sender.added k ++ [{ kind := kindOf flags, addr := offs, size }]) } }

/-- A round of `__get_sg_elem`, and the rest of `dsi_packet_add_data` where it is the last one. -/
def searchRound (s : Stream) (p : Nat) (offs size flags : BitVec 32) (i : Nat) : Except Panic Stream :=
  if (s.sgLists i).flags = sgElemUnused then
    let s := s.setElem i fun e => { e with flags := sgElemUsed }
    let s := { s with sender := { s.sender with nextSgElem := (i + 1) % s.numSgElems } }
    if i = s.sender.nextSgElem then .error .noSgElem
    else .ok (s.fillElem p offs size flags i)
  else
    let i := (i + 1) % s.numSgElems
    if i = s.sender.nextSgElem then .error .noSgElem
    else .ok { s with sender := { s.sender with pc := .searching p offs size flags i } }

/-- `__commit_send_packet`; an empty packet is not committed. -/
def sendCommit (s : Stream) (p : Nat) : Stream :=
  if (s.packets p).sgLen = 0 then s
  else
    let s := s.setPacket p fun k => { k with rxSem := k.rxSem + 1 }
    { s with sender := { s.sender with holds := Function.update s.sender.holds p false } }

/-! ## Receiver -/

/-- `__get_receive_packet` and `dsi_packet_get` with the semaphore of the next packet taken. -/
def gotReceivePacket (s : Stream) : Stream :=
  let p := s.receiver.nextPacket
  let s := s.setPacket p fun k => { k with sgIdx := k.sgList }
  { s with receiver := { s.receiver with
      nextPacket := (p + 1) % s.numPackets
      pc := .ready
      holds := Function.update s.receiver.holds p true
      serial := Function.update s.receiver.serial p s.receiver.gets
      gets := s.receiver.gets + 1 } }

def recvGet (s : Stream) (block : Bool) : Stream :=
  let p := s.receiver.nextPacket
  if (s.packets p).rxSem ≤ 0 then
    if block then
      let s := s.setPacket p fun k => { k with rxSem := k.rxSem - 1 }
      { s with receiver := { s.receiver with pc := .waiting } }
    else s
  else (s.setPacket p fun k => { k with rxSem := k.rxSem - 1 }).gotReceivePacket

/-- What `dsi_packet_get_data` returns for an element: the kind as return value, the address, and the
size. -/
def elemData (s : Stream) (e : SgElem) : AreaKind × BitVec 32 × BitVec 32 :=
  match kindOf e.flags with
  | .phys => (.phys, e.addr, e.size)
  | kind => (kind, s.receiver.dataArea + e.addr, e.size)

/-- The area that the receiver is told of. -/
def areaOf (s : Stream) : AreaKind × BitVec 32 × BitVec 32 → Area
  | (.phys, addr, size) => { kind := .phys, addr, size }
  | (kind, addr, size) => { kind, addr := addr - s.receiver.dataArea, size }

/-- `dsi_packet_get_data`; there is no area where it returns `DSI_ENODATA`. -/
def getData (s : Stream) (p : Nat) : Option (AreaKind × BitVec 32 × BitVec 32) × Stream :=
  let nr := (s.packets p).sgIdx
  if nr < s.numSgElems then
    let data := s.elemData (s.sgLists nr)
    let s := s.setPacket p fun k => { k with sgIdx := (s.sgLists nr).next }
    let k := s.receiver.serial p
    (some data, { s with receiver := { s.receiver with
      read := Function.update s.receiver.read k (s.receiver.read k ++ [s.areaOf data]) } })
  else (none, s)

/-- `__commit_receive_packet` up to the release of the elements. -/
def recvCommit (s : Stream) (p : Nat) : Stream :=
  let s := s.setPacket p fun k => { k with sgIdx := k.sgList }
  { s with receiver := { s.receiver with
      holds := Function.update s.receiver.holds p false
      pc := .releasing p (s.packets p).sgList 0 } }

/-- A round of the loop of `__commit_receive_packet`, or what is behind it. -/
def releaseRound (s : Stream) (p sgElem i : Nat) : Except Panic Stream :=
  if i < (s.packets p).sgLen then
    if sgElem = sgElemLast then .error .corrupted
    else
      let next := (s.sgLists sgElem).next
      let s := s.setElem sgElem fun e => { e with flags := sgElemUnused }
      .ok { s with receiver := { s.receiver with pc := .releasing p next (i + 1) } }
  else if sgElem ≠ sgElemLast then .error .corrupted
  else
    let s := s.setPacket p fun k => { k with txSem := k.txSem + 1 }
    .ok { s with receiver := { s.receiver with pc := .ready } }

/-! ## Steps -/

inductive Event where
  | sendGet (block : Bool)
  | sendWakeup
  | addData (p : Nat) (addr size flags : BitVec 32)
  | search
  | sendCommit (p : Nat)
  | recvGet (block : Bool)
  | recvWakeup
  | getData (p : Nat)
  | recvCommit (p : Nat)
  | release

/-- The steps of a well-behaved sender and a well-behaved receiver. They work on packets they have got
and not committed; the receiver commits a packet after it was told that there are no more data. -/
def Allowed (s : Stream) : Event → Prop
  | .sendGet _ => s.sender.pc = .ready
  | .sendWakeup => s.sender.pc = .waiting ∧ 0 ≤ (s.packets s.sender.nextPacket).txSem
  | .addData p _ _ _ => s.sender.pc = .ready ∧ s.sender.holds p = true
  | .search => ∃ p offs size flags i, s.sender.pc = .searching p offs size flags i
  | .sendCommit p => s.sender.pc = .ready ∧ s.sender.holds p = true
  | .recvGet _ => s.receiver.pc = .ready
  | .recvWakeup => s.receiver.pc = .waiting ∧ 0 ≤ (s.packets s.receiver.nextPacket).rxSem
  | .getData p => s.receiver.pc = .ready ∧ s.receiver.holds p = true
  | .recvCommit p =>
    s.receiver.pc = .ready ∧ s.receiver.holds p = true ∧ (s.packets p).sgIdx = sgElemLast
  | .release => ∃ p sgElem i, s.receiver.pc = .releasing p sgElem i

def step (s : Stream) : Event → Except Panic Stream
  | .sendGet block => .ok (s.sendGet block)
  | .sendWakeup => .ok s.gotSendPacket
  | .addData p addr size flags => .ok (s.addData p addr size flags)
  | .search =>
    match s.sender.pc with
    | .searching p offs size flags i => s.searchRound p offs size flags i
    | _ => .ok s
  | .sendCommit p => .ok (s.sendCommit p)
  | .recvGet block => .ok (s.recvGet block)
  | .recvWakeup => .ok s.gotReceivePacket
  | .getData p => .ok (s.getData p).2
  | .recvCommit p => .ok (s.recvCommit p)
  | .release =>
    match s.receiver.pc with
    | .releasing p sgElem i => s.releaseRound p sgElem i
    | _ => .ok s

/-- The states of a stream. -/
inductive Reachable (cfg : StreamCfg) : Stream → Prop
  | init (sendArea sendSize recvArea : BitVec 32) :
      Reachable cfg (.init cfg sendArea sendSize recvArea)
  | step {s s' : Stream} {a : Event} (h : Reachable cfg s) (ha : s.Allowed a)
      (hrun : s.step a = .ok s') : Reachable cfg s'

end Stream

end L4env.Dsi
