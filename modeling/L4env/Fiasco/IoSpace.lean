import L4env.Util.Count

/-!
# I/O port spaces of the Fiasco kernel

The ports of a task are the zero bits of a bitmap in its address space, which takes two pages that are
mapped on demand. `_io_counter` counts the enabled ports and has a flag for the task that got the whole
space at once (`io_space.cpp`). Where a page of the bitmap is needed, whether there is memory for it is
left open.
-/

namespace L4env.Fiasco

def ioPortMax : Nat := 0x10000
def ioMapSuperpageSize : Nat := 0x10000
def ioPageSize : Nat := 4096

/-- The flag `0x10000000` of `_io_counter`. -/
def superpageFlag : BitVec 32 := 0x10000000#32

/-- `Page_writable | Page_user_accessible` -/
def ioPageAllAttribs : Nat := 2 ||| 4

/-- `Io_space::Status` -/
inductive IoStatus where
  | insertOk
  | insertWarnExists
  | insertWarnAttribUpgrade
  | insertErrNomem
  | insertErrExists
  deriving DecidableEq

/-- What comes of the attempt to map a new page of the bitmap. -/
inductive PageGrant where
  | granted
  /-- `q_alloc` fails -/
  | noPage
  /-- `Mem_space::v_insert` has no memory for a page table -/
  | noTable
  deriving DecidableEq

/-- How the kernel is built. -/
structure IoConfig where
  /-- `NDEBUG`: assertions are not checked -/
  ndebug : Bool
  /-- `CONFIG_IO_PROT_IOPL_3`: a task with the whole space runs with IOPL 3 -/
  iopl3 : Bool
  deriving DecidableEq

structure IoSpace where
  /-- `_io_counter` -/
  counter : BitVec 32
  /-- the pages that are mapped in the area of the bitmap, as bytes -/
  bitmap : Nat → Option (Nat → BitVec 8)

/-- What `v_lookup` returns and writes to its arguments. -/
structure IoLookup where
  found : Bool
  phys : Option Nat
  size : Nat
  attribs : Option Nat
  deriving DecidableEq

namespace IoSpace

/-- The bitmap of a new task is not mapped. -/
def empty : IoSpace := ⟨0, fun _ => none⟩

/-- A failed assertion stops the kernel. -/
def assert (c : IoConfig) (holds : Bool) : Option Unit := if c.ndebug || holds then some () else none

def isSuperpage (s : IoSpace) : Bool := s.counter &&& superpageFlag != 0

def getIoCounter (s : IoSpace) : BitVec 32 := s.counter &&& ~~~superpageFlag

def isMappable (virt size : Nat) : Bool :=
  decide (virt < 0x10000 ∧ (size = 1 ∨ size = ioMapSuperpageSize))

/-! ## Single ports -/

def getPortBit (port : Nat) : BitVec 8 := 1#8 <<< (port &&& 7)

/-- The page of the bitmap with the bit of a port. -/
def portPage (port : Nat) : Nat := (port >>> 3) / ioPageSize

/-- The offset of the byte in this page. -/
def portOffset (port : Nat) : Nat := (port >>> 3) % ioPageSize

/-- A bit that is 0 enables the port. -/
def pageEnables (page : Nat → BitVec 8) (port : Nat) : Bool := page (portOffset port) &&& getPortBit port == 0

/-- The port is enabled in the bitmap. -/
def enabled (s : IoSpace) (port : Nat) : Bool :=
  match s.bitmap (portPage port) with
  | none => false
  | some page => pageEnables page port

def setByte (s : IoSpace) (page : Nat → BitVec 8) (port : Nat) (byte : BitVec 8) : IoSpace :=
  let page := Function.update page (portOffset port) byte
  { s with bitmap := Function.update s.bitmap (portPage port) (some page) }

def addtoIoCounter (s : IoSpace) (incr : BitVec 32) : IoSpace := { s with counter := s.counter + incr }

def ioLookup (c : IoConfig) (s : IoSpace) (port : Nat) : Option Bool := do
  assert c (port < ioPortMax)
  return s.enabled port

/-- The end of `io_insert`: `page` is mapped, the bit is written. -/
def enablePort (s : IoSpace) (page : Nat → BitVec 8) (port : Nat) : IoStatus × IoSpace :=
  if pageEnables page port then (.insertWarnExists, s)
  else (.insertOk,
    (s.setByte page port (page (portOffset port) &&& ~~~getPortBit port)).addtoIoCounter 1)

/-- A new page of the bitmap: no port is enabled. -/
def clearPage : Nat → BitVec 8 := fun _ => 0xff

def mapPage (s : IoSpace) (port : Nat) : IoSpace :=
  { s with bitmap := Function.update s.bitmap (portPage port) (some clearPage) }

def ioInsert (c : IoConfig) (grant : PageGrant) (s : IoSpace) (port : Nat) :
    Option (IoStatus × IoSpace) := do
  assert c (port < ioPortMax)
  match s.bitmap (portPage port) with
  | some page => return s.enablePort page port
  | none =>
    match grant with
    | .noPage | .noTable => return (.insertErrNomem, s)
    | .granted => return (s.mapPage port).enablePort clearPage port

def ioDelete (c : IoConfig) (s : IoSpace) (port : Nat) : Option (Nat × IoSpace) := do
  assert c (port < ioPortMax)
  match s.bitmap (portPage port) with
  | none => return (0, s)
  | some page =>
    if pageEnables page port then
      return (ioPageAllAttribs,
        (s.setByte page port (page (portOffset port) ||| getPortBit port)).addtoIoCounter (-1))
    else return (0, s)

/-! ## The interface of the mapping operations -/

/-- The loop of `v_insert` over all ports; the status of a port is not looked at. -/
def insertPorts (c : IoConfig) (grant : Nat → PageGrant) (s : IoSpace) (n : Nat) : Option IoSpace :=
  (List.range n).foldlM (fun s p => (ioInsert c (grant p) s p).map Prod.snd) s

/-- The loop of `v_delete` over all ports. -/
def deletePorts (c : IoConfig) (s : IoSpace) (n : Nat) : Option IoSpace :=
  (List.range n).foldlM (fun s p => (ioDelete c s p).map Prod.snd) s

def vLookup (c : IoConfig) (s : IoSpace) (virt : Nat) : Option IoLookup :=
  if s.isSuperpage then some ⟨true, some 0, ioMapSuperpageSize, some ioPageAllAttribs⟩
  else do
    if ← ioLookup c s virt then return ⟨true, some virt, 1, some ioPageAllAttribs⟩
    else if s.getIoCounter = 0 then return ⟨false, some 0, ioMapSuperpageSize, none⟩
    else return ⟨false, none, 1, none⟩

def vDelete (c : IoConfig) (s : IoSpace) (virt size pageAttribs : Nat) : Option (Nat × IoSpace) := do
  assert c (pageAttribs = ioPageAllAttribs)
  if s.isSuperpage then
    assert c (size = ioMapSuperpageSize)
    let s ← if c.iopl3 then some s else deletePorts c s ioPortMax
    return (ioPageAllAttribs, { s with counter := 0 })
  else
    assert c (size = 1)
    ioDelete c s virt

/-- `grant` is the answer for each port of the call that needs a new page of the bitmap. -/
def vInsert (c : IoConfig) (grant : Nat → PageGrant) (s : IoSpace) (phys virt size : Nat) :
    Option (IoStatus × IoSpace) := do
  assert c (phys = virt)
  if s.isSuperpage && size == ioMapSuperpageSize then return (.insertWarnExists, s)
  else if s.getIoCounter == 0 && size == ioMapSuperpageSize then
    if c.iopl3 then
      return (.insertOk, { s with counter := superpageFlag ||| BitVec.ofNat 32 ioMapSuperpageSize })
    else
      let s ← insertPorts c grant s ioPortMax
      return (.insertOk, { s with counter := s.counter ||| superpageFlag })
  else
    assert c (size = 1)
    ioInsert c (grant virt) s virt

end IoSpace

end L4env.Fiasco
