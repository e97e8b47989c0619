import L4env.Names.Server

/-!
# What the name server answers

The name service stands for a relation between names and thread ids, `Allows`: which answers it may give, and
what it has registered afterwards. The used slots of the table are the registered entries. The server follows
the relation in a run exactly if all requests are `Proper` where they come.
-/

namespace L4env.Names

/-! ## The relation -/

/-- A request, with the thread id of the client where the server looks at it. -/
inductive Request where
  | register (client : ThreadId) (name : CString)
  | registerThread (name : CString) (id : ThreadId)
  | unregisterThread (client : ThreadId) (name : CString) (id : ThreadId)
  | unregisterTask (id : ThreadId)
  | queryName (name : CString)
  | queryId (id : ThreadId)
  | queryNr (nr : Int)

inductive Answer where
  | done (ret : Bool)
  | id (id : Option ThreadId)
  | name (name : Option CString)
  | nr (answer : NameServer.NrAnswer)

/-- An entry in `P`, a strong one if there is one. -/
def Best (R : Set Entry) (P : Entry → Prop) (e : Entry) : Prop :=
  e ∈ R ∧ P e ∧ (e.weak = true → ∀ f ∈ R, P f → f.weak = true)

/-- There is no strong entry with the name. -/
def NoStrong (R : Set Entry) (name : CString) : Prop := ∀ f ∈ R, f.weak = false → f.name ≠ name

/-- A registration is refused, or the entry is added; a strong one only as the first of its name. -/
def AllowsRegister (R : Set Entry) (e : Entry) (ret : Bool) (R' : Set Entry) : Prop :=
  (ret = true → R' = insert e R ∧ (e.weak = false → NoStrong R e.name)) ∧ (ret = false → R' = R)

/-- With `R` registered the request may be answered in this way, with `R'` registered afterwards. Names are
those the server stores. -/
def Allows (R : Set Entry) : Request → Answer → Set Entry → Prop
  | .register client name, .done ret, R' => AllowsRegister R ⟨stored name, client, false⟩ ret R'
  | .registerThread name id, .done ret, R' => AllowsRegister R ⟨stored name, id, true⟩ ret R'
  | .unregisterThread _ name id, .done ret, R' =>
    R' = {e ∈ R | ¬(e.id = id ∧ e.name = stored name)} ∧
      ((∃ e ∈ R, e.id = id ∧ e.name = stored name) → ret = true)
  | .unregisterTask id, .done ret, R' => R' = {e ∈ R | ThreadId.task e.id ≠ ThreadId.task id} ∧ ret = true
  | .queryName name, .id none, R' => R' = R ∧ ∀ e ∈ R, e.name ≠ stored name
  | .queryName name, .id (some id), R' => R' = R ∧ ∃ e, Best R (fun e => e.name = stored name) e ∧ e.id = id
  | .queryId id, .name none, R' => R' = R ∧ ∀ e ∈ R, e.id ≠ id
  | .queryId id, .name (some name), R' => R' = R ∧ ∃ e, Best R (fun e => e.id = id) e ∧ e.name = name
  | .queryNr _, .nr .invalid, R' => R' = R
  | .queryNr _, .nr (.entry name id), R' => R' = R ∧ ∃ e ∈ R, e.name = name ∧ e.id = id
  | _, _, _ => False

namespace NameServer

/-! ## Runs -/

/-- The answer to a request that changes the table. -/
def done (r : Bool × NameServer) : Answer × NameServer := (.done r.1, r.2)

/-- The server loop, for one request. -/
def step (c : Config) (s : NameServer) : Request → Answer × NameServer
  | .register client name => done (s.register c client name)
  | .registerThread name id => done (s.registerThread c name id)
  | .unregisterThread client name id => done (s.unregisterThread c client name id)
  | .unregisterTask id => done (s.unregisterTask c id)
  | .queryName name => (.id (s.queryName (some name)), s)
  | .queryId id => (.name (s.queryId id), s)
  | .queryNr nr => (.nr (s.queryNr nr), s)

/-- What `main` registers, for the server itself and for `sigma0`. -/
def boot (me sigma0 : ThreadId) : List Request :=
  [.register me (.ofChars ['n', 'a', 'm', 'e', 's']),
    .register sigma0 (.ofChars ['s', 'i', 'g', 'm', 'a', '0'])]

/-- The slot has the id of a thread. -/
def Used (s : NameServer) (i : Nat) : Prop := i < maxEntries ∧ (s.entries i).id ≠ invalidId

/-- The slot is free to be registered. -/
def Unused (s : NameServer) (i : Nat) : Prop := i < maxEntries ∧ (s.entries i).id = invalidId

def registered (s : NameServer) : Set Entry := {e | ∃ i, s.Used i ∧ s.entries i = e}

/-- There is at most one strong entry of a name. -/
def StrongUnique (s : NameServer) : Prop :=
  ∀ i j, s.Used i → s.Used j → (s.entries i).weak = false → (s.entries j).weak = false →
    (s.entries i).name = (s.entries j).name → i = j

/-- The server follows the relation in a run. -/
def Follows (c : Config) : NameServer → List Request → Prop
  | s, [] => s.StrongUnique
  | s, r :: l =>
    s.StrongUnique ∧ Allows s.registered r (s.step c r).1 (s.step c r).2.registered ∧
      Follows c (s.step c r).2 l

/-- The table is full, or there is a strong slot with the name of a strong entry. -/
def Refuses (s : NameServer) (name : CString) (weak : Bool) : Prop :=
  (∀ i, ¬ s.Unused i) ∨
    weak = false ∧ ∃ i < maxEntries, (s.entries i).weak = false ∧ (s.entries i).name = name

/-- The condition on a registration: it is refused, or it is for a valid id, and the name of a strong entry is
not cut down to the name of another one. -/
def ProperEntry (s : NameServer) (name : CString) (id : ThreadId) (weak : Bool) : Prop :=
  s.Refuses name weak ∨ id ≠ invalidId ∧
    (weak = true ∨ name.length ≤ maxNameLen ∨ NoStrong s.registered (stored name))

/-- The condition on a request: a name that is too long is not cut down to the one of an entry the request is
about, the empty name is looked up only where an entry comes first in the search, the invalid id only in a full
table, and a number is not negative. -/
def Proper (s : NameServer) : Request → Prop
  | .register client name => s.ProperEntry name client false
  | .registerThread name id => s.ProperEntry name id true
  | .unregisterThread _ name id =>
    name.length ≤ maxNameLen ∨ ∀ e ∈ s.registered, ¬(e.id = id ∧ e.name = stored name)
  | .unregisterTask _ => True
  | .queryName name =>
    (name.length ≤ maxNameLen ∨ ∀ e ∈ s.registered, e.name ≠ stored name) ∧
      (name = .empty → ∀ i, s.Unused i → ∃ j, s.Used j ∧ (s.entries j).name = .empty ∧
        rank (fun k => (s.entries k).weak) j < rank (fun k => (s.entries k).weak) i)
  | .queryId id => id ≠ invalidId ∨ ∀ i, ¬ s.Unused i
  | .queryNr nr => 0 ≤ nr

/-- All requests of a run are proper where they come. -/
def AllProper (c : Config) : NameServer → List Request → Prop
  | _, [] => True
  | s, r :: l => s.Proper r ∧ AllProper c (s.step c r).2 l

end NameServer

end L4env.Names
