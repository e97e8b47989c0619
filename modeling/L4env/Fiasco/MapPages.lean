import L4env.Fiasco.MemUnmap

/-!
# Mapping memory

`map` of `map_util.cpp` for memory spaces, and runs of the system: flexpages are mapped and unmapped, and
tasks access their pages.
-/

namespace L4env.Fiasco

open Config

/-- The arguments of `map`. -/
structure MapCall where
  sender : Nat
  sndAddr : Nat
  sndSize : Nat
  receiver : Nat
  rcvAddr : Nat
  grant : Bool
  attribAdd : PageAttribs
  attribDel : PageAttribs

/-- The variables of the loop of `map`. -/
structure MapVars (n : Nat) where
  st : MapState n
  sndAddr : Nat
  sndSize : Nat
  rcvAddr : Nat
  grant : Bool

/-- How an iteration ends: with the increment, or the loop is left, also with an error. -/
inductive MapStep (n : Nat)
  | next (v : MapVars n) (size : Nat)
  | leave (st : MapState n) (failed : Bool)

/-- The page the sender has at its current address. -/
structure SenderPage where
  phys : Nat
  size : Nat
  attribs : PageAttribs

/-- The entry for the receiver: `i_phys`, `i_size`, and whether it is granted. -/
structure Insertion where
  phys : Nat
  size : Nat
  grant : Bool

namespace MapState

variable {n : Nat}

/-- An unmap as part of `map`. -/
def unmap (st : MapState n) (call : UnmapCall) : MapM (MapState n) := fun answers =>
  match (call.run st answers).2 with
  | .ok (u, answers) => pure (u.st, answers)
  | .error e => .error e

/-- `Mapdb::free`, if a frame is locked -/
def release (st : MapState n) : Option MappingPath → MapM (MapState n)
  | none => pure st
  | some path => st.free path

end MapState

namespace MapCall

variable {n : Nat} (call : MapCall)

/-- The parent of the receiver's mapping, if it is the sender's mapping and its entry can be upgraded. -/
def upgradable (v : MapVars n) (s : SenderPage) (rPhys rSize : Nat) :
    MapM (Option MappingPath × MapState n) := do
  if v.grant ∨ s.size < rSize ∨ Word.roundDown rPhys s.size ≠ s.phys ∨ v.st.validAddress rPhys = false then
    return (none, v.st)
  let (found, st) ← v.st.lookup call.receiver v.rcvAddr rPhys
  match found with
  | none => return (none, st)
  | some path => do
    let (frame, st) ← st.editAt Frame.ofTreemap path
    match frame.parent with
    | none => throw .nullPointer
    | some (p, parent) =>
      if parent.space = call.sender ∧ parent.page * frame.size % 4294967296 = v.sndAddr then
        return (some (path.dropLast ++ (path.getLast?.map fun last => (last.1, p)).toList), st)
      else return (none, ← st.free path)

/-- The receiver's page is upgraded or flushed. The result is the sender's mapping for an upgrade. -/
def clearReceiver (v : MapVars n) (s : SenderPage) : Slot → MapM (Option MappingPath × MapState n)
  | .free _ => pure (none, v.st)
  | .page rPhys rSize _ => do
    let (upgrade, st) ← call.upgradable v s rPhys rSize
    match upgrade with
    | some path => return (some path, st)
    | none =>
      let st ← st.unmap ⟨call.receiver, 0, Word.roundDown v.rcvAddr rSize, rSize, true,
        PageAttribs.userAccessible ||| PageAttribs.writable⟩
      return (none, st)

/-- Superpages are mapped as pages where they do not fit; they are not granted then. -/
def insertionOf (v : MapVars n) (s : SenderPage) (rSize : Nat) : Insertion :=
  if s.size = Config.superpageSize ∧ (v.sndSize < s.size ∨ rSize < s.size ∨ v.sndAddr % Config.superpageSize ≠ 0 ∨
      v.rcvAddr % Config.superpageSize ≠ 0 ∨
      Word.add call.rcvAddr call.sndSize < Word.add v.rcvAddr Config.superpageSize ∨
      v.st.isMappable v.rcvAddr s.size = false) then
    ⟨s.phys ||| v.sndAddr % Config.superpageSize, pageSize, false⟩
  else ⟨s.phys, s.size, v.grant⟩

/-- The entry of the mapping database for an inserted page; the answer is `false` if it could not be made. -/
def enter (st : MapState n) (s : SenderPage) (i : Insertion) (rcvAddr : Nat) (status : InsertStatus)
    (upgrade : Bool) : Option MappingPath → MapM (Bool × MapState n)
  | none => pure (true, st)
  | some path =>
    if st.validAddress s.phys = false then pure (true, st)
    else if i.grant then st.editAt (Treemaps.grant call.receiver rcvAddr) path
    else if status ≠ .ok then pure (true, st)
    else if upgrade then throw .assertion
    else
      st.editAt (fun n t key m => Treemaps.insert call.receiver rcvAddr i.size (n + 1) t key m i.phys) path

/-- The iteration from the insertion on. -/
def insertPage (v : MapVars n) (s : SenderPage) (i : Insertion) (mapping : Option MappingPath)
    (upgrade : Bool) : MapM (MapStep n) := do
  let some rcv := v.st.spaces call.receiver | throw .nullPointer
  let attribs := (s.attribs &&& ~~~call.attribDel) ||| call.attribAdd
  let table ← ask
  let (status, rcv) ← liftMem (rcv.vInsert table.isSome i.phys v.rcvAddr i.size attribs)
  let st := v.st.putSpace call.receiver rcv
  match status with
  | .errNomem => return .leave (← st.release mapping) true
  | .errExists => return .next { v with st := ← st.release mapping, grant := i.grant } i.size
  | _ =>
    if st.validAddress s.phys = false ∧ status ≠ .ok then throw .assertion
    let (entered, st) ← call.enter st s i v.rcvAddr status upgrade mapping
    if entered = false then
      let (_, rcv) ← liftMem (rcv.vDelete v.rcvAddr i.size PageAttribs.all)
      return .leave (← (st.putSpace call.receiver rcv).release mapping) true
    let st ← if i.grant then do
        let some snd := st.spaces call.sender | throw .nullPointer
        let (_, snd) ← liftMem (snd.vDelete (Word.roundDown v.sndAddr s.size) s.size PageAttribs.all)
        pure (st.putSpace call.sender snd)
      else pure st
    return .next { v with st := ← st.release mapping, grant := i.grant } i.size

/-- The iteration for a page of the sender. -/
def mapPresent (v : MapVars n) (s : SenderPage) (slot : Slot) (rSize : Nat) : MapM (MapStep n) := do
  let (upgrade, st) ← call.clearReceiver v s slot
  let v := { v with st := st }
  let (mapping, st) ← match upgrade with
    | some path => pure (some path, st)
    | none =>
      if st.validAddress s.phys then
        st.lookup call.sender (Word.roundDown v.sndAddr s.size) s.phys
      else pure (none, st)
  let v := { v with st := st }
  -- someone deleted this mapping in the meantime
  if mapping.isNone ∧ v.st.validAddress s.phys then return .next v pageSize
  let i := call.insertionOf v s rSize
  if v.st.isMappable v.rcvAddr i.size = false then
    return .next { v with st := ← v.st.release mapping, grant := i.grant } pageSize
  call.insertPage v s i mapping upgrade.isSome

/-- An iteration of the loop. -/
def mapPage (v : MapVars n) : MapM (MapStep n) := do
  let some snd := v.st.spaces call.sender | throw .nullPointer
  let some rcv := v.st.spaces call.receiver | throw .nullPointer
  if call.sender ≠ sigma0Task ∧ MemLayout.userMax ≤ v.sndAddr then return .leave v.st false
  match pageAt call.sender snd v.sndAddr with
  | .free _ => return .next v pageSize
  | .page phys size attribs =>
    match rcv.vLookup v.rcvAddr with
    | .free rSize => call.mapPresent v ⟨phys, size, attribs⟩ (.free rSize) rSize
    | .page rPhys rSize rAttribs =>
      if v.st.isMappable v.rcvAddr pageSize = false then return .next v pageSize
      else call.mapPresent v ⟨phys, size, attribs⟩ (.page rPhys rSize rAttribs) rSize

/-- The loop of `map` over at most `fuel` pages. -/
def loop : (fuel : Nat) → MapVars n → MapM (MapState n × Bool)
  | 0, v => pure (v.st, false)
  | fuel + 1, v =>
    if v.sndSize ≠ 0 ∧ v.rcvAddr < MemLayout.userMax then do
      match ← call.mapPage v with
      | .leave st failed => return (st, failed)
      | .next v size =>
        loop fuel { v with
          rcvAddr := Word.add v.rcvAddr size
          sndAddr := Word.add v.sndAddr size
          sndSize := Word.sub v.sndSize size }
    else pure (v.st, false)

/-- `map`, and whether it answers `Remapfailed`. -/
def run (st : MapState n) : MapM (MapState n × Bool) :=
  call.loop (MemLayout.userMax / pageSize + 1) ⟨st, call.sndAddr, call.sndSize, call.rcvAddr, call.grant⟩

end MapCall

/-! ## Runs -/

/-- The processor marks the entry of an accessed page. -/
def MemSpace.access (s : MemSpace) (virt : Nat) (write : Bool) : MemSpace :=
  let mark (e : PageEntry) : PageEntry :=
    { e with attribs := e.attribs ||| PageAttribs.referenced |||
        (if write ∧ e.attribs &&& PageAttribs.writable ≠ 0 then PageAttribs.dirty else 0) }
  match s.dir (pdIndex virt) with
  | .invalid => s
  | .superpage e => s.setDir (pdIndex virt) (.superpage (mark e))
  | .ptab entries =>
    s.setDir (pdIndex virt)
      (.ptab (Function.update entries (ptIndex virt) ((entries (ptIndex virt)).map mark)))

/-- What happens to the memory spaces. -/
inductive MemEvent
  | map (call : MapCall)
  | unmap (call : UnmapCall)
  | access (space virt : Nat) (write : Bool)

def MemEvent.run {n : Nat} (st : MapState n) : MemEvent → MapM (MapState n)
  | .map call => do
    let (st, _) ← call.run st
    return st
  | .unmap call => st.unmap call
  | .access space virt write =>
    match st.spaces space with
    | none => pure st
    | some s => pure (st.putSpace space (s.access virt write))

def runEvents {n : Nat} : List MemEvent → MapState n → MapM (MapState n)
  | [], st => pure st
  | e :: es, st => do runEvents es (← e.run st)

/-- The state after the start, with empty spaces for the tasks; the mapping database has trees for superpages
and pages, in `mapdb_instance()`. -/
def MapState.boot (tasks : Nat → Bool) (utcbSizePages : Nat) : MapState 1 where
  spaces id := if tasks id then some ⟨fun _ => .invalid⟩ else none
  mapdb := ⟨⟨1024, sigma0Task, Config.superpageSize, fun _ => none⟩, 0, [pageSize]⟩
  utcbSizePages := utcbSizePages

end L4env.Fiasco
