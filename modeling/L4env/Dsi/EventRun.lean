import L4env.Dsi.EventInv

/-!
# Event signalling as a service

The event thread as it should be: for each socket a queue of clients with the masks they wait for,
and the numbers of sets and successful resets of each event. The event server refines it: a request is
finished, sends the same wakeups and leads to the same queues.
-/

namespace L4env.Dsi

structure Waiter (T : Type) where
  client : T
  events : EventMask

def Waiter.hit {T : Type} (w : Waiter T) (events : EventMask) : Bool :=
  decide (w.events &&& events ≠ 0)

/-- The masks that two clients of a socket wait for have no event in common. -/
def Waiter.Apart {T : Type} (w w' : Waiter T) : Prop := w'.events &&& w.events = 0

/-- The state of the service. -/
structure Signals (T : Type) where
  queue : Nat → List (Waiter T)
  sets : Nat → Nat → Nat
  resets : Nat → Nat → Nat

/-- A request that is not refused for its sender, its command or its socket. -/
inductive Op (T : Type) where
  | set (id : Nat) (events : EventMask)
  | reset (id : Nat) (events : EventMask)
  | wait (client : T) (id : Nat) (events : EventMask)
  | refused

/-- The operation sets one of the events of the mask at the socket. -/
def Op.sets {T : Type} (o : Op T) (id : Nat) (mask : EventMask) : Prop :=
  ∃ events, o = .set id events ∧ mask &&& events ≠ 0

namespace Signals

variable {T : Type}

def initial : Signals T := ⟨fun _ => [], fun _ _ => 0, fun _ _ => 0⟩

def count (σ : Signals T) (id i : Nat) : Nat := σ.sets id i - σ.resets id i

/-- Every client that waits for one of the events is woken up with those it waits for. -/
def set (σ : Signals T) (id : Nat) (events : EventMask) : List (Wakeup T) × Signals T :=
  (((σ.queue id).filter fun w => w.hit events).map fun w =>
      ⟨id, w.client, w.events, w.events &&& events⟩,
    { σ with
      queue := Function.update σ.queue id ((σ.queue id).filter fun w => !w.hit events)
      sets := Function.update σ.sets id fun i =>
        if EventServer.hasEvent events i then σ.sets id i + 1 else σ.sets id i })

/-- The events that are set are taken back once. -/
def reset (σ : Signals T) (id : Nat) (events : EventMask) : Signals T :=
  { σ with
    resets := Function.update σ.resets id fun i =>
      if EventServer.hasEvent events i && decide (0 < σ.count id i) then σ.resets id i + 1
      else σ.resets id i }

/-- The client is refused if somebody waits for one of the events, gets those that are set at once, or
has to wait. -/
def wait (σ : Signals T) (client : T) (id : Nat) (events : EventMask) :
    List (Wakeup T) × Signals T :=
  if (σ.queue id).any fun w => w.hit events then ([], σ)
  else
    let mask := EventServer.setEvents events (σ.count id)
    if mask ≠ 0 then ([⟨id, client, events, mask⟩], σ)
    else ([], { σ with queue := Function.update σ.queue id (σ.queue id ++ [⟨client, events⟩]) })

def step (σ : Signals T) : Op T → List (Wakeup T) × Signals T
  | .set id events => σ.set id events
  | .reset id events => ([], σ.reset id events)
  | .wait client id events => σ.wait client id events
  | .refused => ([], σ)

end Signals

namespace EventServer

variable {T : Type} {s s' : EventServer T} {σ σ' : Signals T} {id c : Nat} {events : EventMask}
  {r : Request T}

/-- The operation that is requested. -/
def op (s : EventServer T) (r : Request T) : Op T :=
  let cmd := r.dw0 &&& ~~~ eventMask
  let events := r.dw0 &&& eventMask
  if s.validSocket r.dw1 = false then .refused
  else if cmd = eventSet then if r.own then .set r.dw1 events else .refused
  else if cmd = eventReset then .reset r.dw1 events
  else if cmd = eventWait then .wait r.src r.dw1 events
  else .refused

/-- The conditions of a request: nobody waits for no event, and no event counter wraps. -/
def OpOk (s : EventServer T) : Op T → Prop
  | .set id events => ∀ i, hasEvent events i = true → (s.socket id).events i < 2 ^ 32 - 1
  | .wait _ _ events => events ≠ 0
  | _ => True

/-- The client an element of `clients` describes. -/
def waiter (s : EventServer T) (c : Nat) : Waiter T := ⟨s.id c, s.events c⟩

/-- The server has the queues and the counters of the service, with the client lists `q`. -/
structure Agrees (s : EventServer T) (σ : Signals T) (q : Nat → List Nat) : Prop where
  inv : Inv s q
  queue : ∀ id, σ.queue id = (q id).map s.waiter
  count : ∀ id, ∀ i < maxEvents, (s.socket id).events i + σ.resets id i = σ.sets id i

variable {q q' : Nat → List Nat}

theorem Agrees.count_eq (h : Agrees s σ q) (id : Nat) {i : Nat} (hi : i < maxEvents) :
    σ.count id i = (s.socket id).events i := by
  have hcount := h.count id i hi
  rw [Signals.count]
  omega

theorem setEvents_congr {count count' : Nat → Nat} (h : ∀ i < maxEvents, count i = count' i) :
    setEvents events count = setEvents events count' := by
  rw [setEvents, setEvents]
  refine List.foldl_ext _ _ _ fun mask i hi => ?_
  rw [h i (List.mem_range.mp hi)]

/-! ## Set -/

theorem filter_waiter {l : List Nat} :
    (l.map s.waiter).filter (fun w => w.hit events) =
      (l.filter (s.hits events)).map s.waiter := by
  rw [List.filter_map]
  rfl

theorem filter_not_waiter {l : List Nat} :
    (l.map s.waiter).filter (fun w => !w.hit events) =
      (l.filter fun c => !s.hits events c).map s.waiter := by
  rw [List.filter_map]
  rfl

theorem woken_nil (h : Inv s q) (hwaiting : (s.socket id).waiting &&& events = 0) :
    Woken s id events [] (q id) [] s := by
  have hmiss : ∀ c ∈ q id, s.hits events c = false := by
    rw [(h.listed id).waiting, Mask.union_and_eq_zero] at hwaiting
    intro c hc
    rw [hits, hwaiting _ (List.mem_map_of_mem hc)]
    exact decide_eq_false fun hne => hne rfl
  have hall : (q id).filter (fun c => !s.hits events c) = q id :=
    List.filter_eq_self.mpr fun c hc => by rw [hmiss c hc]; rfl
  have hnone : (q id).filter (s.hits events) = [] :=
    List.filter_eq_nil_iff.mpr fun c hc => by rw [hmiss c hc]; exact Bool.false_ne_true
  refine ⟨by rw [hnone]; rfl, ?_, Frame.refl s id _, fun _ _ => rfl, fun c hc hhit => ?_⟩
  · rw [hall]
    exact h.listed id
  · rw [hmiss c hc] at hhit
    cases hhit

theorem Agrees.woken {wakeups : List (Wakeup T)} (h : Agrees s σ q)
    (hok : OpOk s (.set id events))
    (hw : Woken (s.countEvents id events) id events [] (q id) wakeups s') :
    wakeups = (σ.set id events).1 ∧
    Agrees s' (σ.set id events).2
      (Function.update q id ((q id).filter fun c => !s.hits events c)) := by
  have hinv : Inv (s.countEvents id events) q := h.inv.setCount id _
  refine ⟨?_, hinv.woken hw, fun j => ?_, fun j i hi => ?_⟩
  · rw [hw.wakeups, Signals.set, h.queue, filter_waiter, List.map_map]
    rfl
  · by_cases hj : j = id
    · subst hj
      simp only [Signals.set, Function.update_self, h.queue, filter_not_waiter]
      refine List.map_congr_left fun c hc => ?_
      rw [waiter, waiter, hw.frame.client, hw.stay c hc]
      rfl
    · simp only [Signals.set, Function.update_of_ne hj, h.queue]
      refine List.map_congr_left fun c hc => ?_
      rw [waiter, waiter, hw.frame.client, hw.frame.mask c fun hid => hj (h.inv.disjoint j id c hc hid)]
      rfl
  · have hcount := h.count j i hi
    by_cases hj : j = id
    · subst hj
      rw [hw.frame.count]
      simp only [countEvents, setSocket, Signals.set, Function.update_self]
      split
      · rename_i hevent
        rw [Nat.mod_eq_of_lt (by have := hok i hevent; omega)]
        omega
      · exact hcount
    · rw [hw.frame.other j hj]
      simpa [countEvents, setSocket, Signals.set, hj] using hcount

theorem Agrees.setEvent (fails : T → EventMask → Bool) (h : Agrees s σ q) (hid : s.validSocket id = true)
    (hok : OpOk s (.set id events)) :
    ∃ res q', Returns (fun n => s.setEvent fails n id events) res ∧ res.reply ≠ .panic ∧
      res.wakeups = (σ.set id events).1 ∧ Agrees res.server (σ.set id events).2 q' := by
  have hinv : Inv (s.countEvents id events) q := h.inv.setCount id _
  by_cases hwaiting : ((s.countEvents id events).socket id).waiting &&& events = 0
  · obtain ⟨hwakeups, hagrees⟩ := h.woken hok (woken_nil hinv hwaiting)
    refine ⟨⟨.code none, [], s.countEvents id events⟩, _, (Returns.const _).congr fun n => ?_, nofun,
      hwakeups, hagrees⟩
    rw [EventServer.setEvent, if_pos hid]
    exact if_neg (not_not.mpr hwaiting)
  · have hlisted : (s.countEvents id events).Listed id ([] ++ q id) := hinv.listed id
    obtain ⟨error, wakeups, s', hw, heq⟩ := hlisted.wakeLoop
    obtain ⟨hwakeups, hagrees⟩ := h.woken hok hw
    refine ⟨⟨.code error, wakeups, s'⟩, _, ⟨(q id).length + 1, fun n hn => ?_⟩, nofun, hwakeups,
      hagrees⟩
    show s.setEvent fails n id events = _
    rw [EventServer.setEvent, if_pos hid]
    simp only [if_pos hwaiting]
    rw [hlisted.list.head_eq]
    exact congrArg _ (heq n hn)

/-! ## Reset and wait -/

theorem Agrees.resetEvent (events : EventMask) (h : Agrees s σ q) (hid : s.validSocket id = true) :
    (s.resetEvent id events).reply ≠ .panic ∧ (s.resetEvent id events).wakeups = [] ∧
      Agrees (s.resetEvent id events).server (σ.reset id events) q := by
  rw [EventServer.resetEvent, if_pos hid]
  refine ⟨nofun, rfl, h.inv.setCount id _, h.queue, fun j i hi => ?_⟩
  have hcount := h.count j i hi
  have heq := h.count_eq j hi
  by_cases hj : j = id
  · subst hj
    simp only [setSocket, Signals.reset, Function.update_self, heq]
    split
    · rename_i hset
      have hpos : 0 < (s.socket j).events i := by simp_all
      omega
    · exact hcount
  · simpa [setSocket, Signals.reset, hj] using hcount

/-- The socket is busy if somebody waits for one of the events. -/
theorem Agrees.any_hit (h : Agrees s σ q) :
    (((σ.queue id).any fun w => w.hit events) = true) ↔ (s.socket id).waiting &&& events ≠ 0 := by
  have hlisted := h.inv.listed id
  rw [hlisted.waiting, Ne, Mask.union_and_eq_zero, h.queue, List.any_map, List.any_eq_true]
  constructor
  · rintro ⟨c, hc, hhit⟩ hnone
    exact of_decide_eq_true hhit (hnone _ (List.mem_map_of_mem hc))
  · intro hhit
    by_contra hnone
    refine hhit fun m hm => ?_
    obtain ⟨c, hc, rfl⟩ := List.mem_map.mp hm
    by_contra hne
    exact hnone ⟨c, hc, decide_eq_true hne⟩

/-- One more client has room in the list: its mask has an event of its own. -/
theorem Agrees.length_lt (h : Agrees s σ q) (hbusy : (s.socket id).waiting &&& events = 0)
    (hevents : ∃ b < maxEvents, events.getLsbD b = true) : (q id).length < maxEvents := by
  have hlisted := h.inv.listed id
  rw [hlisted.waiting, Mask.union_and_eq_zero] at hbusy
  have hle : (events :: (q id).map s.events).length ≤ maxEvents := by
    refine Mask.length_le (List.pairwise_cons.mpr ⟨fun m hm => ?_, hlisted.disjoint⟩) fun m hm => ?_
    · exact Mask.Disjoint.symm (hbusy m hm)
    · rcases List.mem_cons.mp hm with rfl | hm
      · exact hevents
      · obtain ⟨c, hc, rfl⟩ := List.mem_map.mp hm
        exact h.inv.used id c hc
  simpa using hle

theorem Agrees.waitForEvents (client : T) (h : Agrees s σ q) (hid : s.validSocket id = true)
    (hevents : ∃ b < maxEvents, events.getLsbD b = true) :
    ∃ res q', Returns (fun n => s.waitForEvents n client id events) res ∧ res.reply ≠ .panic ∧
      res.wakeups = (σ.wait client id events).1 ∧ Agrees res.server (σ.wait client id events).2 q' := by
  have hmask : EventServer.setEvents events (σ.count id) =
      EventServer.setEvents events (s.socket id).events :=
    setEvents_congr fun i hi => h.count_eq id hi
  by_cases hbusy : (s.socket id).waiting &&& events = 0
  · have hnot : ¬ ((σ.queue id).any fun w => w.hit events) = true := by
      rw [h.any_hit]
      exact not_not.mpr hbusy
    rw [Signals.wait, if_neg hnot]
    simp only [hmask]
    split
    · rename_i hset
      refine ⟨⟨.none, _, s⟩, q, (Returns.const _).congr fun n => ?_, nofun, rfl, h⟩
      rw [EventServer.waitForEvents, if_pos hid, if_neg (not_not.mpr hbusy)]
      exact if_pos hset
    · rename_i hset
      obtain ⟨i, hfind⟩ := h.inv.findClient hid (h.length_lt hbusy hevents)
      obtain ⟨hi, hfree⟩ := findClient_some hfind
      rw [Nat.zero_add] at hi
      obtain ⟨s', heq, hinv, hclient, hmasks, hcount⟩ :=
        h.inv.enqueue client hid hbusy hevents hi hfree
      refine ⟨⟨.none, [], s'.markWaiting id events⟩, _, ⟨maxEvents, fun n hn => ?_⟩, nofun, rfl,
        hinv, ?_, ?_⟩
      · show s.waitForEvents n client id events = _
        rw [EventServer.waitForEvents, if_pos hid, if_neg (not_not.mpr hbusy)]
        simp only [if_neg hset, hfind, heq n hn, Option.map_some]
      · have hold : ∀ {j c}, c ∈ q j → (s'.markWaiting id events).waiter c = s.waiter c := by
          intro j c hc
          have hne : c ≠ i := by
            rintro rfl
            obtain ⟨b, -, hb⟩ := h.inv.used j c hc
            simp [hfree] at hb
          show Waiter.mk (s'.id c) (s'.events c) = _
          rw [hclient, hmasks, Function.update_of_ne hne, Function.update_of_ne hne]
          rfl
        have hnew : (s'.markWaiting id events).waiter i = ⟨client, events⟩ := by
          show Waiter.mk (s'.id i) (s'.events i) = _
          rw [hclient, hmasks, Function.update_self, Function.update_self]
        intro j
        by_cases hj : j = id
        · subst hj
          simp only [Function.update_self, List.map_append, List.map_cons, List.map_nil, hnew,
            h.queue]
          exact congrArg (· ++ _) (List.map_congr_left fun c hc => (hold hc).symm)
        · simp only [Function.update_of_ne hj, h.queue]
          exact List.map_congr_left fun c hc => (hold hc).symm
      · intro j k hk
        show ((s'.markWaiting id events).socket j).events k + σ.resets j k = σ.sets j k
        rw [hcount]
        exact h.count j k hk
  · have hany := h.any_hit.mpr hbusy
    rw [Signals.wait, if_pos hany]
    refine ⟨⟨.code (some .ebusy), [], s⟩, q, (Returns.const _).congr fun n => ?_, nofun, rfl, h⟩
    rw [EventServer.waitForEvents, if_pos hid, if_pos hbusy]

/-! ## Requests -/

theorem getLsbD_eventMask {b : Nat} (hb : maxEvents ≤ b) : eventMask.getLsbD b = false := by
  by_cases hlt : b < 32
  · rw [maxEvents] at hb
    interval_cases b <;> rfl
  · exact BitVec.getLsbD_of_ge _ _ (not_lt.mp hlt)

/-- An extracted mask that is not empty has an event. -/
theorem exists_event {m : BitVec 32} (h : m &&& eventMask ≠ 0) :
    ∃ b < maxEvents, (m &&& eventMask).getLsbD b = true := by
  by_contra hnone
  refine h (BitVec.eq_of_getLsbD_eq fun b _ => ?_)
  rw [show (0 : BitVec 32).getLsbD b = false from BitVec.getLsbD_zero]
  by_cases hb : b < maxEvents
  · cases hbit : (m &&& eventMask).getLsbD b with
    | false => rfl
    | true => exact absurd ⟨b, hb, hbit⟩ hnone
  · rw [BitVec.getLsbD_and, getLsbD_eventMask (not_lt.mp hb), Bool.and_false]

/-- A request for a socket that is not there changes nothing. -/
theorem exec_invalid (fails : T → EventMask → Bool) (hid : s.validSocket r.dw1 = false) :
    ∃ error, ∀ n, s.exec fails n r = some ⟨.code error, [], s⟩ := by
  have hno : ¬ s.validSocket r.dw1 = true := by simp [hid]
  by_cases hset : r.dw0 &&& ~~~ eventMask = eventSet
  · cases hown : r.own with
    | true =>
      refine ⟨some .einval, fun n => ?_⟩
      simp only [exec, if_pos hset, hown, setEvent, if_neg hno, if_true]
    | false =>
      refine ⟨some .eperm, fun n => ?_⟩
      simp [exec, hset, hown]
  · refine ⟨some .einval, fun n => ?_⟩
    simp only [exec, if_neg hset, resetEvent, waitForEvents, if_neg hno, ite_self]

theorem Agrees.exec (fails : T → EventMask → Bool) (h : Agrees s σ q) (hok : OpOk s (s.op r)) :
    ∃ res q', Returns (fun n => s.exec fails n r) res ∧ res.reply ≠ .panic ∧
      res.wakeups = (σ.step (s.op r)).1 ∧ Agrees res.server (σ.step (s.op r)).2 q' := by
  cases hid : s.validSocket r.dw1 with
  | false =>
    obtain ⟨error, hexec⟩ := exec_invalid fails hid
    have hop : s.op r = .refused := by rw [op]; exact if_pos hid
    rw [hop]
    exact ⟨_, q, (Returns.const _).congr hexec, nofun, rfl, h⟩
  | true =>
    have hno : ¬ s.validSocket r.dw1 = false := by simp [hid]
    by_cases hset : r.dw0 &&& ~~~ eventMask = eventSet
    · cases hown : r.own with
      | true =>
        have hop : s.op r = .set r.dw1 (r.dw0 &&& eventMask) := by
          simp only [op, if_neg hno, if_pos hset, hown, if_true]
        rw [hop] at hok ⊢
        obtain ⟨res, q', hres, hspec⟩ := h.setEvent fails hid hok
        refine ⟨res, q', hres.congr fun n => ?_, hspec⟩
        simp only [EventServer.exec, if_pos hset, hown, if_true]
      | false =>
        have hop : s.op r = .refused := by
          simp only [op, if_neg hno, if_pos hset, hown, Bool.false_eq_true, if_false]
        rw [hop]
        refine ⟨⟨.code (some .eperm), [], s⟩, q, (Returns.const _).congr fun n => ?_, nofun, rfl, h⟩
        simp only [EventServer.exec, if_pos hset, hown, Bool.false_eq_true, if_false]
    · by_cases hreset : r.dw0 &&& ~~~ eventMask = eventReset
      · have hop : s.op r = .reset r.dw1 (r.dw0 &&& eventMask) := by
          simp only [op, if_neg hno, if_neg hset, if_pos hreset]
        rw [hop]
        obtain ⟨hreply, hwakeups, hagrees⟩ := h.resetEvent (r.dw0 &&& eventMask) hid
        refine ⟨_, q, (Returns.const _).congr fun n => ?_, hreply, hwakeups, hagrees⟩
        simp only [EventServer.exec, if_neg hset, if_pos hreset]
      · by_cases hwait : r.dw0 &&& ~~~ eventMask = eventWait
        · have hop : s.op r = .wait r.src r.dw1 (r.dw0 &&& eventMask) := by
            simp only [op, if_neg hno, if_neg hset, if_neg hreset, if_pos hwait]
          rw [hop] at hok ⊢
          obtain ⟨res, q', hres, hspec⟩ := h.waitForEvents r.src hid (exists_event hok)
          refine ⟨res, q', hres.congr fun n => ?_, hspec⟩
          simp only [EventServer.exec, if_neg hset, if_neg hreset, if_pos hwait]
        · have hop : s.op r = .refused := by
            simp only [op, if_neg hno, if_neg hset, if_neg hreset, if_neg hwait]
          rw [hop]
          refine ⟨⟨.code (some .einval), [], s⟩, q, (Returns.const _).congr fun n => ?_, nofun, rfl,
            h⟩
          simp only [EventServer.exec, if_neg hset, if_neg hreset, if_neg hwait]

/-! ## Runs -/

/-- The server after `dsi_init_event_signalling`, with sockets as `dsi_socket_create` sets them up. -/
structure Initial (s : EventServer T) : Prop where
  free : ∀ c < maxClients, s.events c = 0
  clients : ∀ id, (s.socket id).clients = none
  waiting : ∀ id, (s.socket id).waiting = 0
  count : ∀ id i, (s.socket id).events i = 0

/-- The server and the service go through a number of requests, each of which meets its condition. -/
inductive Runs (s : EventServer T) (σ : Signals T) :
    List (Op T × List (Wakeup T)) → EventServer T → Signals T → Prop
  | nil : Runs s σ [] s σ
  | step {log : List (Op T × List (Wakeup T))} {s' : EventServer T} {σ' : Signals T}
    {r : Request T} {fails : T → EventMask → Bool} {res : Result T} : Runs s σ log s' σ' →
    OpOk s' (s'.op r) → Returns (fun n => s'.exec fails n r) res →
    Runs s σ (log ++ [(s'.op r, res.wakeups)]) res.server (σ'.step (s'.op r)).2

theorem Initial.agrees (h : Initial s) : Agrees s Signals.initial fun _ => [] where
  inv := {
    listed := fun id => ⟨h.clients id, List.nodup_nil, List.Pairwise.nil, h.waiting id⟩
    disjoint := nofun
    lt := nofun
    used := nofun
    free := fun c hc hne => absurd (h.free c hc) hne
    valid := fun _ hne => absurd rfl hne }
  queue _ := rfl
  count id i _ := h.count id i

variable {log : List (Op T × List (Wakeup T))}

theorem Runs.agrees (h : Runs s σ log s' σ') (hs : ∃ q, Agrees s σ q) : ∃ q, Agrees s' σ' q := by
  induction h with
  | nil => exact hs
  | step _ hok hres ih =>
    obtain ⟨q, hq⟩ := ih
    obtain ⟨res, q', hres', -, -, hagrees⟩ := hq.exec _ hok
    cases hres.unique hres'
    exact ⟨q', hagrees⟩

/-! ## Wakeups -/

theorem Agrees.apart (h : Agrees s σ q) (id : Nat) : (σ.queue id).Pairwise Waiter.Apart := by
  rw [h.queue, List.pairwise_map]
  refine (List.pairwise_map.mp (h.inv.listed id).disjoint).imp fun hdisj => ?_
  exact Mask.Disjoint.symm hdisj

/-- A client stays in the queue until one of its events is set, and no wakeup of the socket in the
meantime is for a mask that meets its own. -/
theorem Agrees.stays (h : Agrees s σ q) {w : Waiter T} (hw : w ∈ σ.queue id) {o : Op T}
    (ho : ¬ o.sets id w.events) :
    w ∈ (σ.step o).2.queue id ∧
      ∀ k ∈ (σ.step o).1, k.socket = id → k.events &&& w.events = 0 := by
  cases o with
  | refused => exact ⟨hw, nofun⟩
  | reset j events => exact ⟨hw, nofun⟩
  | set j events =>
    by_cases hj : j = id
    · subst hj
      have hmiss : w.events &&& events = 0 := by
        by_contra hne
        exact ho ⟨events, rfl, hne⟩
      refine ⟨?_, fun k hk _ => ?_⟩
      · simp only [Signals.step, Signals.set, Function.update_self, List.mem_filter]
        exact ⟨hw, by simp [Waiter.hit, hmiss]⟩
      · obtain ⟨w', hw', rfl⟩ := List.mem_map.mp hk
        obtain ⟨hmem, hhit⟩ := List.mem_filter.mp hw'
        have hne : w ≠ w' := by
          rintro rfl
          exact of_decide_eq_true hhit hmiss
        have : Std.Symm (Waiter.Apart (T := T)) := ⟨fun _ _ => Mask.Disjoint.symm⟩
        exact (h.apart j).forall hw hmem hne
    · refine ⟨?_, fun k hk hid => ?_⟩
      · simpa only [Signals.step, Signals.set, Function.update_of_ne (Ne.symm hj)] using hw
      · obtain ⟨w', -, rfl⟩ := List.mem_map.mp hk
        exact absurd hid hj
  | wait client j events =>
    simp only [Signals.step, Signals.wait]
    split
    · exact ⟨hw, nofun⟩
    · rename_i hbusy
      split
      · refine ⟨hw, fun k hk hid => ?_⟩
        rw [List.mem_singleton.mp hk] at hid ⊢
        cases hid
        by_contra hne
        refine hbusy (List.any_eq_true.mpr ⟨w, hw, decide_eq_true fun hz => hne ?_⟩)
        exact (BitVec.and_comm _ _).trans hz
      · refine ⟨?_, nofun⟩
        by_cases hj : j = id
        · subst hj
          simp [hw]
        · simpa [Ne.symm hj] using hw

/-- The first set of one of its events wakes the client up, with exactly those it waits for. -/
theorem Agrees.wakes (h : Agrees s σ q) {w : Waiter T} (hw : w ∈ σ.queue id)
    (hhit : w.events &&& events ≠ 0) :
    (∃ k₁ k₂, (σ.set id events).1 = k₁ ++ ⟨id, w.client, w.events, w.events &&& events⟩ :: k₂ ∧
      ∀ k ∈ k₁ ++ k₂, k.events &&& w.events = 0) ∧
    ∀ w' ∈ (σ.set id events).2.queue id, w'.events &&& w.events = 0 := by
  obtain ⟨w₁, w₂, heq⟩ := List.append_of_mem hw
  have hapart := h.apart id
  rw [heq] at hapart
  have hsplit := List.pairwise_append.mp hapart
  have hother : ∀ w' ∈ w₁ ++ w₂, w'.events &&& w.events = 0 := by
    intro w' hw'
    rcases List.mem_append.mp hw' with hw' | hw'
    · exact Mask.Disjoint.symm (hsplit.2.2 w' hw' w List.mem_cons_self)
    · exact List.rel_of_pairwise_cons hsplit.2.1 hw'
  have htrue : w.hit events = true := decide_eq_true hhit
  have hpos : (w₁ ++ w :: w₂).filter (fun w => w.hit events) =
      w₁.filter (fun w => w.hit events) ++ w :: w₂.filter fun w => w.hit events := by
    simp [htrue]
  have hneg : (w₁ ++ w :: w₂).filter (fun w => !w.hit events) =
      (w₁ ++ w₂).filter fun w => !w.hit events := by
    simp [htrue]
  refine ⟨⟨_, _, by rw [Signals.set, heq, hpos, List.map_append, List.map_cons], fun k hk => ?_⟩,
    fun w' hw' => ?_⟩
  · rw [← List.map_append, ← List.filter_append] at hk
    obtain ⟨w', hw', rfl⟩ := List.mem_map.mp hk
    exact hother w' (List.mem_of_mem_filter hw')
  · simp only [Signals.set, Function.update_self, heq, hneg] at hw'
    exact hother w' (List.mem_of_mem_filter hw')

/-- The client of a queue is woken up once: it stays in the queue through every run in which none of
its events is set, and then the next request to set some of them wakes it up. -/
def WokenOnce (s : EventServer T) (σ : Signals T) (id : Nat) (w : Waiter T) : Prop :=
  ∀ log s' σ', Runs s σ log s' σ' → (∀ e ∈ log, ¬ e.1.sets id w.events) →
    (∀ e ∈ log, ∀ k ∈ e.2, k.socket = id → k.events &&& w.events = 0) ∧
    ∀ events, w.events &&& events ≠ 0 →
      (∃ k₁ k₂, (σ'.set id events).1 = k₁ ++ ⟨id, w.client, w.events, w.events &&& events⟩ :: k₂ ∧
        ∀ k ∈ k₁ ++ k₂, k.events &&& w.events = 0) ∧
      ∀ w' ∈ (σ'.set id events).2.queue id, w'.events &&& w.events = 0

theorem Runs.stays {w : Waiter T} (h : Runs s σ log s' σ') (hs : ∃ q, Agrees s σ q)
    (hw : w ∈ σ.queue id) (hlog : ∀ e ∈ log, ¬ e.1.sets id w.events) :
    w ∈ σ'.queue id ∧ ∀ e ∈ log, ∀ k ∈ e.2, k.socket = id → k.events &&& w.events = 0 := by
  induction h with
  | nil => exact ⟨hw, nofun⟩
  | step hrun hok hres ih =>
    obtain ⟨hmem, hlog'⟩ := ih fun e he => hlog e (List.mem_append_left _ he)
    obtain ⟨q, hq⟩ := hrun.agrees hs
    obtain ⟨res, q', hres', -, hwakeups, -⟩ := hq.exec _ hok
    cases hres.unique hres'
    have hlast := hq.stays hmem (hlog _ (List.mem_append_right _ (List.mem_singleton_self _)))
    refine ⟨hlast.1, fun e he => ?_⟩
    rcases List.mem_append.mp he with he | he
    · exact hlog' e he
    · rw [List.mem_singleton.mp he]
      simp only [hwakeups]
      exact hlast.2

/-- A server whose sockets are all in use, and no event has been set. -/
def fresh : EventServer Nat where
  socket _ := ⟨true, fun _ => 0, 0, none⟩
  id _ := 0
  events _ := 0
  next _ := none

theorem initial_fresh : Initial fresh := ⟨fun _ _ => rfl, fun _ => rfl, fun _ => rfl, fun _ _ => rfl⟩

/-- The request of the client 7 to wait for the events `events` at socket 0. -/
def waitRequest (events : BitVec 32) : Request Nat := ⟨7, false, eventWait ||| events, 0⟩

theorem walkWhile_loop {next : Nat → Option Nat} {x : Nat} (h : next x = some x) (n : Nat) :
    walkWhile next (fun _ => true) n x = none := by
  induction n with
  | zero => rfl
  | succ n ih => rw [walkWhile, h]; exact ih

/-- A request to wait does not end where the client list starts with an element linked to itself. -/
theorem waitForEvents_loop {client : T} {i : Nat} (hid : s.validSocket id = true)
    (hbusy : (s.socket id).waiting &&& events = 0)
    (hset : setEvents events (s.socket id).events = 0) (hfind : s.findClient maxClients 0 = some i)
    (hclients : (s.socket id).clients = some c) (hci : c ≠ i) (hnext : s.next c = some c) (n : Nat) :
    s.waitForEvents n client id events = none := by
  have hnext' : (s.setupClient i client events).next c = some c := by
    rw [← hnext]
    exact Function.update_of_ne hci _ _
  rw [EventServer.waitForEvents, if_pos hid, if_neg (not_not.mpr hbusy)]
  simp only [hset, hfind, ne_eq, not_true_eq_false, if_false, enqueueClient]
  rw [show ((s.setupClient i client events).socket id).clients = some c from hclients]
  simp only [walkWhile_loop hnext', Option.map_none]

end EventServer

end L4env.Dsi
