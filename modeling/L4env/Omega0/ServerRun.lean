import L4env.Omega0.Server
import L4env.Util.Outcome

/-!
# Runs of the interrupt server

The counters of an interrupt line say what the records of its clients say, in every order of the messages
to the management thread and to the threads of the lines, and a line never goes dead: it is enabled in the
kernel, in service, or masked by a client.
-/

namespace L4env.Omega0

variable {d d' : Irq} {c c' x : Client} {t : ThreadId} {sent : ThreadId → Bool}

/-- The client has been woken up for the last interrupt and has not answered yet. -/
def Client.serving (counter : Nat) (c : Client) : Bool := c.inService && c.lastIrqNum == counter

namespace Irq

def names (d : Irq) : List ThreadId := d.clients.map Client.client

/-- What holds for a line between two messages. -/
structure Inv (d : Irq) : Prop where
  nodup : d.names.Nodup
  registered : d.clientsRegistered = d.clients.length
  unshared : d.shared = false → d.clients.length ≤ 1
  masked : d.masked = d.clients.countP Client.masked + d.leftMasked
  idle : ∀ c ∈ d.clients, c.waiting = true → c.inService = false
  last : ∀ c ∈ d.clients, c.lastIrqNum ≤ d.counter
  served : d.inService = true → d.clientsWaiting = d.clients.countP (Client.serving d.counter)
  line : d.enabled = false → d.inService = true ∨ 0 < d.masked ∨ d.clients = []
  wakeup : ∀ t keep, d.wakeup = .client t keep → ∃ c ∈ d.clients, c.client = t ∧ c.waiting = true

theorem ne_of_split {l₁ l₂ : List Client} (hd : d.names.Nodup) (hl : d.clients = l₁ ++ c :: l₂) :
    ∀ x ∈ l₁ ++ l₂, x.client ≠ c.client := by
  intro x hx he
  have hperm : d.names.Perm (c.client :: (l₁ ++ l₂).map Client.client) := by
    rw [names, hl]
    exact List.perm_middle.map _
  exact (List.nodup_cons.mp (hperm.nodup_iff.mp hd)).1 (List.mem_map.mpr ⟨x, hx, he⟩)

theorem find_client (hd : d.names.Nodup) (hc : c ∈ d.clients) :
    d.clients.find? (fun x => x.client = c.client) = some c := by
  obtain ⟨l₁, l₂, hl⟩ := List.append_of_mem hc
  have hne := ne_of_split hd hl
  rw [hl, List.find?_append, List.find?_eq_none.mpr fun x hx => by simpa using hne x (List.mem_append_left _ hx)]
  simp

section setClient

variable (hd : d.names.Nodup) (hc : c ∈ d.clients) (hname : c'.client = c.client)

theorem names_setClient : (d.setClient c').names = d.names := by
  unfold setClient names
  rw [List.map_map]
  refine List.map_congr_left fun x _ => ?_
  by_cases h : x.client = c'.client
  · simp [h]
  · simp [h]

include hd hc hname

theorem exists_split : ∃ l₁ l₂, d.clients = l₁ ++ c :: l₂ ∧ (d.setClient c').clients = l₁ ++ c' :: l₂ := by
  obtain ⟨l₁, l₂, hl⟩ := List.append_of_mem hc
  refine ⟨l₁, l₂, hl, ?_⟩
  have hne : ∀ x ∈ l₁ ++ l₂, x.client ≠ c'.client := hname ▸ ne_of_split hd hl
  have hsame : ∀ l : List Client, (∀ x ∈ l, x.client ≠ c'.client) →
      (l.map fun x => if x.client = c'.client then c' else x) = l := fun l h =>
    (List.map_congr_left fun x hx => if_neg (h x hx)).trans (List.map_id' _)
  unfold setClient
  dsimp only
  rw [hl, List.map_append, List.map_cons, if_pos hname.symm,
    hsame l₁ fun x hx => hne x (List.mem_append_left _ hx),
    hsame l₂ fun x hx => hne x (List.mem_append_right _ hx)]

theorem countP_setClient (p : Client → Bool) :
    (d.setClient c').clients.countP p + (if p c then 1 else 0) = d.clients.countP p + (if p c' then 1 else 0) := by
  obtain ⟨l₁, l₂, hl, hl'⟩ := exists_split hd hc hname
  rw [hl, hl', List.countP_append, List.countP_append, List.countP_cons, List.countP_cons]
  omega

theorem mem_setClient : x ∈ (d.setClient c').clients ↔ x = c' ∨ x ∈ d.clients ∧ x.client ≠ c.client := by
  obtain ⟨l₁, l₂, hl, hl'⟩ := exists_split hd hc hname
  have hne := ne_of_split hd hl
  rw [hl, hl']
  simp only [List.mem_append, List.mem_cons] at hne ⊢
  constructor
  · rintro (h | rfl | h)
    · exact .inr ⟨.inl h, hne x (.inl h)⟩
    · exact .inl rfl
    · exact .inr ⟨.inr (.inr h), hne x (.inr h)⟩
  · rintro (rfl | ⟨h | rfl | h, hx⟩)
    · exact .inr (.inl rfl)
    · exact .inl h
    · exact absurd rfl hx
    · exact .inr (.inr h)

end setClient

/-- What a step does to the record of one client and to the counters of the line. -/
structure Edit (d : Irq) (c : Client) (d' : Irq) (c' : Client) : Prop where
  clients : d'.clients = (d.setClient c').clients
  name : c'.client = c.client
  registered : d'.clientsRegistered = d.clientsRegistered
  shared : d'.shared = d.shared
  counter : d'.counter = d.counter
  leftMasked : d'.leftMasked = d.leftMasked
  masked : d'.masked + (if c.masked then 1 else 0) = d.masked + (if c'.masked then 1 else 0)
  idle : c'.waiting = true → c'.inService = false
  last : c'.lastIrqNum ≤ d.counter
  served : d'.inService = true → d.inService = true ∧
    d'.clientsWaiting + (if c.serving d.counter then 1 else 0) =
      d.clientsWaiting + (if c'.serving d.counter then 1 else 0)
  line : d'.enabled = false → d'.inService = true ∨ 0 < d'.masked
  wakeup : ∀ t keep, d'.wakeup = .client t keep → t = c'.client ∧ c'.waiting = true

theorem Inv.edit (h : d.Inv) (hc : c ∈ d.clients) (he : Edit d c d' c') : d'.Inv ∧ d'.names = d.names := by
  have hnames : d'.names = d.names := by
    have hedit : (d.setClient c').names = d.names := names_setClient
    rw [← hedit, names, he.clients]
    rfl
  have hmem : ∀ x, x ∈ d'.clients ↔ x = c' ∨ x ∈ d.clients ∧ x.client ≠ c.client := fun x => by
    rw [he.clients]
    exact mem_setClient h.nodup hc he.name
  have hcount := countP_setClient h.nodup hc he.name
  have hlength : d'.clients.length = d.clients.length := by
    have hlen := congrArg List.length hnames
    simpa [names] using hlen
  refine ⟨⟨hnames ▸ h.nodup, ?_, fun hs => ?_, ?_, fun x hx hw => ?_, fun x hx => ?_, fun hs => ?_, fun hl => ?_,
    fun t keep hw => ?_⟩, hnames⟩
  · rw [he.registered, hlength]
    exact h.registered
  · rw [hlength]
    exact h.unshared (he.shared ▸ hs)
  · have hm := hcount Client.masked
    have hmasked := he.masked
    rw [h.masked] at hmasked
    rw [he.clients, he.leftMasked]
    split_ifs at hm hmasked <;> omega
  · obtain rfl | hx := (hmem x).mp hx
    · exact he.idle hw
    · exact h.idle x hx.1 hw
  · rw [he.counter]
    obtain rfl | hx := (hmem x).mp hx
    · exact he.last
    · exact h.last x hx.1
  · obtain ⟨hold, hw⟩ := he.served hs
    have hm := hcount (Client.serving d.counter)
    rw [h.served hold] at hw
    rw [he.clients, he.counter]
    split_ifs at hm hw <;> omega
  · exact (he.line hl).imp_right .inl
  · obtain ⟨rfl, hwait⟩ := he.wakeup t keep hw
    exact ⟨c', (hmem c').mpr (.inl rfl), rfl, hwait⟩

/-- The thread of the line is not in the IPC of a wakeup. -/
def Idle (d : Irq) : Prop := d.wakeup = .none

theorem Idle.ne (h : d.Idle) (t : ThreadId) (keep : Bool) : d.wakeup ≠ .client t keep := fun e => by
  rw [h] at e
  cases e

theorem Inv.live (h : d.Inv) (hc : c ∈ d.clients) (hl : d.enabled = false) :
    d.inService = true ∨ 0 < d.masked :=
  (h.line hl).imp_right fun hm => hm.resolve_right fun e => by
    rw [e] at hc
    cases hc

theorem Inv.signal (h : d.Inv) (hidle : d.Idle) (hc : c ∈ d.clients) (hw : c.waiting = true) (r : Request)
    (s : Bool) : (d.signalSingleUserThread { c with lastRequest := r } s).Inv ∧
      (d.signalSingleUserThread { c with lastRequest := r } s).names = d.names := by
  have hs := h.idle c hc hw
  unfold signalSingleUserThread
  cases s with
  | true =>
    exact h.edit hc {
      clients := rfl, name := rfl, registered := rfl, shared := rfl, counter := rfl, leftMasked := rfl
      masked := rfl
      idle := fun hw' => by cases hw'
      last := le_refl _
      served := fun hin => ⟨hin, by simp [Client.serving, hs, setClient]⟩
      line := h.live hc
      wakeup := fun t keep hk => absurd hk (hidle.ne t keep) }
  | false =>
    exact h.edit hc {
      clients := rfl, name := rfl, registered := rfl, shared := rfl, counter := rfl, leftMasked := rfl
      masked := rfl
      idle := fun hw' => by cases hw'
      last := h.last c hc
      served := fun hin => ⟨hin, by simp [Client.serving, setClient]⟩
      line := h.live hc
      wakeup := fun t keep hk => absurd hk (hidle.ne t keep) }

@[simp] theorem signalSingleUserThread_wakeup (d : Irq) (c : Client) (s : Bool) :
    (d.signalSingleUserThread c s).wakeup = d.wakeup := by
  cases s <;> rfl

theorem mem_signal (h : d.Inv) (hc : c ∈ d.clients) (hx : x ∈ d.clients) (hne : x.client ≠ c.client) (s : Bool) :
    x ∈ (d.signalSingleUserThread c s).clients := by
  have hname : ∀ c' : Client, c'.client = c.client → x ∈ (d.setClient c').clients := fun _ hc' =>
    (mem_setClient h.nodup hc hc').mpr (.inr ⟨hx, hne⟩)
  cases s with
  | true => exact hname { c with inService := true, lastIrqNum := d.counter, waiting := false } rfl
  | false => exact hname { c with waiting := false } rfl

theorem Inv.signalLoop {l : List Client} (h : d.Inv) (hidle : d.Idle) (hl : ∀ c ∈ l, c ∈ d.clients)
    (hnodup : (l.map Client.client).Nodup) :
    (signalLoop sent l d).Inv ∧ (Irq.signalLoop sent l d).names = d.names := by
  induction l generalizing d with
  | nil => exact ⟨h, rfl⟩
  | cons c rest ih =>
    have hc := hl c List.mem_cons_self
    cases rest with
    | nil =>
      unfold Irq.signalLoop
      split
      · rename_i hw
        split
        · exact ⟨⟨h.nodup, h.registered, h.unshared, h.masked, h.idle, h.last, h.served, h.line,
            fun t keep hk => by
              cases hk
              exact ⟨c, hc, rfl, hw⟩⟩, rfl⟩
        · exact h.signal hidle hc hw c.lastRequest false
      · exact ⟨h, rfl⟩
    | cons c₂ rest =>
      rw [List.map_cons, List.nodup_cons] at hnodup
      unfold Irq.signalLoop
      split
      · rename_i hw
        obtain ⟨hinv, hnames⟩ := h.signal hidle hc hw c.lastRequest (sent c.client)
        have hrest : ∀ y ∈ c₂ :: rest, y ∈ (d.signalSingleUserThread c (sent c.client)).clients := fun y hy =>
          mem_signal h hc (hl y (List.mem_cons_of_mem _ hy))
            (fun e => hnodup.1 (List.mem_map.mpr ⟨y, hy, e⟩)) _
        obtain ⟨hinv', hnames'⟩ := ih hinv ((signalSingleUserThread_wakeup ..).trans hidle) hrest hnodup.2
        exact ⟨hinv', hnames'.trans hnames⟩
      · exact ih h hidle (fun y hy => hl y (List.mem_cons_of_mem _ hy)) hnodup.2

theorem Inv.interrupt (h : d.Inv) (hidle : d.Idle) (hcounter : d.counter + 1 < 2 ^ 32) :
    (d.signalUserThreads sent).Inv ∧ (d.signalUserThreads sent).names = d.names := by
  unfold signalUserThreads
  rw [Nat.mod_eq_of_lt hcounter]
  have hzero : d.clients.countP (Client.serving (d.counter + 1)) = 0 := by
    refine List.countP_eq_zero.mpr fun c hc => ?_
    have hle := h.last c hc
    simp only [Client.serving, Bool.and_eq_true, beq_iff_eq, not_and]
    omega
  have hstart : Inv { d with enabled := false, inService := true, counter := d.counter + 1, clientsWaiting := 0 } :=
    ⟨h.nodup, h.registered, h.unshared, h.masked, h.idle, fun c hc => (h.last c hc).trans (Nat.le_succ _),
      fun _ => by rw [hzero]; rfl, fun _ => .inl rfl, h.wakeup⟩
  exact hstart.signalLoop hidle (fun c hc => hc) h.nodup

theorem finishWakeup_outcome (h : d.Inv) (next : Request) :
    Outcome (fun d' => (d'.Inv ∧ d'.names = d.names) ∧ d'.Idle ∧ d'.counter = d.counter ∧ d'.enabled = d.enabled)
      (fun f => f = .freedClient ∧ d.wakeup = .freed) (d.finishWakeup next) := by
  unfold finishWakeup
  cases hw : d.wakeup with
  | none => exact ⟨⟨h, rfl⟩, hw, rfl, rfl⟩
  | freed => exact ⟨rfl, rfl⟩
  | client t keep =>
    obtain ⟨c, hc, hname, hwait⟩ := h.wakeup t keep hw
    dsimp only
    rw [← hname, find_client h.nodup hc]
    have hidle : Inv { d with wakeup := .none } :=
      ⟨h.nodup, h.registered, h.unshared, h.masked, h.idle, h.last, h.served, h.line, fun _ _ hk => by cases hk⟩
    exact ⟨hidle.signal rfl hc hwait _ true, rfl, rfl, rfl⟩

/-- What `check_auto_consume` does to a line: the client is no longer one of those that are waited for. -/
structure AutoConsumed (d : Irq) (c : Client) (a : Irq) : Prop where
  clients : a.clients = d.clients
  registered : a.clientsRegistered = d.clientsRegistered
  shared : a.shared = d.shared
  counter : a.counter = d.counter
  leftMasked : a.leftMasked = d.leftMasked
  masked : a.masked = d.masked
  wakeup : a.wakeup = d.wakeup
  served : a.inService = true → d.inService = true ∧
    a.clientsWaiting + (if c.serving d.counter then 1 else 0) = d.clientsWaiting
  enabled : a.enabled = false → d.enabled = false ∧ (d.inService = true → a.inService = true)

theorem checkAutoConsume_spec (d : Irq) (c : Client) : AutoConsumed d c (d.checkAutoConsume c) := by
  unfold checkAutoConsume
  by_cases hs : c.serving d.counter = true
  · by_cases hin : d.inService = true
    · have hcond : (c.inService && c.lastIrqNum == d.counter && d.inService) = true := by
        rw [hin, Bool.and_true]
        exact hs
      rw [if_pos hcond]
      dsimp only
      split
      · simp only [irqConsume, hin, if_true, Option.getD_some]
        exact ⟨rfl, rfl, rfl, rfl, rfl, rfl, rfl, Bool.false_ne_true.elim, Bool.noConfusion⟩
      · refine ⟨rfl, rfl, rfl, rfl, rfl, rfl, rfl, fun h => ⟨h, ?_⟩, fun h => ⟨h, fun h => h⟩⟩
        simp [hs]
    · rw [if_neg (by simp [hin])]
      exact ⟨rfl, rfl, rfl, rfl, rfl, rfl, rfl, fun h => absurd h hin, fun h => ⟨h, fun h => h⟩⟩
  · have hc : (c.inService && c.lastIrqNum == d.counter) = false := by simpa [Client.serving] using hs
    rw [hc]
    exact ⟨rfl, rfl, rfl, rfl, rfl, rfl, rfl, fun h => ⟨h, by simp [hs]⟩, fun h => ⟨h, fun h => h⟩⟩

theorem setClient_setClient (d : Irq) (c c' : Client) (hname : c'.client = c.client) :
    (d.setClient c').clients = ((d.setClient c).setClient c').clients := by
  unfold setClient
  dsimp only
  rw [List.map_map]
  refine List.map_congr_left fun x _ => ?_
  by_cases h : x.client = c.client
  · simp [h, hname]
  · simp [h, hname]

/-- The line is consistent once the record of the client is written back. -/
structure Work.Ok (d : Irq) (c : Client) (w : Work) : Prop where
  inv : (w.d.setClient w.c).Inv
  clients : w.d.clients = d.clients
  name : w.c.client = c.client
  idle : w.d.Idle
  counter : w.d.counter = d.counter

theorem Work.Ok.mem {w : Work} (h : w.Ok d c) (hd : d.Inv) (hc : c ∈ d.clients) :
    w.c ∈ (w.d.setClient w.c).clients := by
  have hnodup : w.d.names.Nodup := by
    rw [names, h.clients]
    exact hd.nodup
  exact (mem_setClient hnodup (h.clients ▸ hc) h.name).mpr (.inl rfl)

/-- The end of a request. -/
theorem Work.Ok.edit {w : Work} (h : w.Ok d c) (hd : d.Inv) (hc : c ∈ d.clients)
    (he : Edit (w.d.setClient w.c) w.c d' c') : d'.Inv ∧ d'.names = d.names := by
  obtain ⟨hinv, hnames⟩ := h.inv.edit (h.mem hd hc) he
  refine ⟨hinv, hnames.trans ?_⟩
  rw [names_setClient, names, h.clients]
  rfl

/-- A stage of a request. -/
theorem Work.Ok.stage {w w' : Work} (h : w.Ok d c) (hd : d.Inv) (hc : c ∈ d.clients)
    (he : Edit (w.d.setClient w.c) w.c (w'.d.setClient w'.c) w'.c) (hclients : w'.d.clients = w.d.clients)
    (hwakeup : w'.d.wakeup = w.d.wakeup) : w'.Ok d c :=
  ⟨(h.edit hd hc he).1, hclients.trans h.clients, he.name.trans h.name, hwakeup.trans h.idle,
    he.counter.trans h.counter⟩

theorem Work.Ok.setRequest {w : Work} (h : w.Ok d c) (req : Request) : ({ w with req } : Work).Ok d c :=
  ⟨h.inv, h.clients, h.name, h.idle, h.counter⟩

theorem again_ok {w : Work} (h : w.Ok d c) : (again w).Ok d c := by
  unfold again
  split
  · exact h.setRequest _
  · exact h

/-- A stage that masks or unmasks the line for the client. -/
theorem Work.Ok.setMasked {w : Work} (h : w.Ok d c) (hd : d.Inv) (hc : c ∈ d.clients) {masked : Int}
    {enabled m : Bool} {req : Request}
    (hm : masked + (if w.c.masked then 1 else 0) = w.d.masked + (if m then 1 else 0))
    (hline : enabled = false → w.d.inService = true ∨ 0 < masked) :
    Work.Ok d c { d := { w.d with masked, enabled }, c := { w.c with masked := m }, req } := by
  have hmem := h.mem hd hc
  exact h.stage hd hc {
    clients := setClient_setClient w.d w.c _ rfl, name := rfl, registered := rfl, shared := rfl
    counter := rfl, leftMasked := rfl
    masked := hm
    idle := h.inv.idle w.c hmem
    last := h.inv.last w.c hmem
    served := fun hin => ⟨hin, rfl⟩
    line := hline
    wakeup := fun t keep hk => absurd hk (h.idle.ne t keep) } rfl rfl

theorem unmask_ok {w : Work} (h : w.Ok d c) (hd : d.Inv) (hc : c ∈ d.clients) (irq : Nat) :
    Outcome (Work.Ok d c) (fun e => e.2.Ok d c) (unmask irq w) := by
  unfold unmask
  split
  · split
    · exact h
    · split
      · exact h
      · rename_i hm
        have hmasked : w.c.masked = true := by simpa using hm
        dsimp only
        by_cases hz : w.d.masked - 1 = 0
        · rw [if_pos hz]
          exact h.setMasked hd hc (by simp [hmasked]) fun hl => by cases hl
        · rw [if_neg hz]
          refine h.setMasked hd hc (by simp [hmasked]) fun hl =>
            (h.inv.live (h.mem hd hc) hl).imp_right fun hpos => ?_
          have hpos : 0 < w.d.masked := hpos
          omega
  · exact h

theorem consume_ok {w : Work} (h : w.Ok d c) (hd : d.Inv) (hc : c ∈ d.clients) :
    Outcome (Work.Ok d c) (fun e => e.2.Ok d c) (consume w) := by
  unfold consume
  split
  · split
    · exact h
    · unfold irqConsume
      by_cases hin : w.d.inService = true
      · rw [if_pos hin]
        have hmem := h.mem hd hc
        exact h.stage hd hc {
          clients := setClient_setClient w.d w.c _ rfl, name := rfl, registered := rfl, shared := rfl
          counter := rfl, leftMasked := rfl, masked := rfl
          idle := fun _ => rfl
          last := h.inv.last w.c hmem
          served := fun hin => by cases hin
          line := fun hl => by cases hl
          wakeup := fun t keep hk => absurd hk (h.idle.ne t keep) } rfl rfl
      · rw [if_neg hin]
        exact h
  · exact h

theorem mask_ok {w : Work} (h : w.Ok d c) (hd : d.Inv) (hc : c ∈ d.clients) (irq : Nat) :
    Outcome (Work.Ok d c) (fun e => e.2.Ok d c) (mask irq w) := by
  unfold mask
  split
  · split
    · exact h
    · split
      · exact h
      · rename_i hm
        have hmasked : w.c.masked = false := by simpa using hm
        refine h.setMasked hd hc (by simp [hmasked]) fun hl =>
          (h.inv.live (h.mem hd hc) hl).imp_right fun hpos => ?_
        have hpos : 0 < w.d.masked := hpos
        omega
  · exact h

theorem back_spec {w : Work} (h : w.Ok d c) (hd : d.Inv) (hc : c ∈ d.clients) :
    w.back.Inv ∧ w.back.names = d.names := by
  have hmem := h.mem hd hc
  exact h.edit hd hc {
    clients := setClient_setClient w.d w.c _ rfl, name := rfl, registered := rfl, shared := rfl
    counter := rfl, leftMasked := rfl, masked := rfl
    idle := h.inv.idle w.c hmem
    last := h.inv.last w.c hmem
    served := fun hin => ⟨hin, rfl⟩
    line := h.inv.live hmem
    wakeup := fun t keep hk => absurd hk (h.idle.ne t keep) }

/-- The client's record after a wait, whatever it says about the request. -/
theorem wait_edit {w : Work} (h : w.Ok d c) (hd : d.Inv) (hc : c ∈ d.clients) {a : Irq}
    (ha : AutoConsumed w.d w.c a) (waiting : Bool) (lastRequest : Request) {wakeup : Wakeup}
    (hw : ∀ t keep, wakeup = .client t keep → t = w.c.client ∧ waiting = true) :
    Inv { a.setClient { w.c with inService := false, waiting, lastRequest } with wakeup } ∧
      names { a.setClient { w.c with inService := false, waiting, lastRequest } with wakeup } = d.names := by
  have hmem := h.mem hd hc
  suffices he : Edit (w.d.setClient w.c) w.c
      { a.setClient { w.c with inService := false, waiting, lastRequest } with wakeup }
      { w.c with inService := false, waiting, lastRequest } from h.edit hd hc he
  refine {
    clients := ?_, name := rfl, registered := ha.registered, shared := ha.shared
    counter := ha.counter, leftMasked := ha.leftMasked
    masked := ?_
    idle := fun _ => rfl
    last := h.inv.last w.c hmem
    served := fun hin => ?_
    line := fun hl => ?_
    wakeup := hw }
  · refine Eq.trans ?_ (setClient_setClient w.d w.c _ rfl)
    unfold setClient
    dsimp only
    rw [ha.clients]
  · show a.masked + _ = w.d.masked + _
    rw [ha.masked]
  · obtain ⟨hin', hserved⟩ := ha.served hin
    refine ⟨hin', ?_⟩
    show a.clientsWaiting + (if w.c.serving w.d.counter then 1 else 0) =
      w.d.clientsWaiting + (if Client.serving w.d.counter { w.c with inService := false, waiting, lastRequest }
        then 1 else 0)
    rw [hserved]
    simp [Client.serving]
  · obtain ⟨hl', hin⟩ := ha.enabled hl
    obtain hlive | hpos := h.inv.live hmem hl'
    · exact .inl (hin hlive)
    · refine .inr ?_
      show 0 < a.masked
      rw [ha.masked]
      exact hpos

theorem wait_spec {w : Work} (h : w.Ok d c) (hd : d.Inv) (hc : c ∈ d.clients) (s : Bool) :
    (wait w s).Inv ∧ (wait w s).names = d.names := by
  have ha := checkAutoConsume_spec w.d w.c
  have hidle : (w.d.checkAutoConsume w.c).wakeup = .none := ha.wakeup.trans h.idle
  have hkeep : ∀ r waiting, Inv ((w.d.checkAutoConsume w.c).setClient
      { w.c with inService := false, waiting, lastRequest := r }) ∧
      ((w.d.checkAutoConsume w.c).setClient { w.c with inService := false, waiting, lastRequest := r }).names =
        d.names := fun r waiting =>
    wait_edit h hd hc ha waiting r fun t keep hk => by
      have hk : (w.d.checkAutoConsume w.c).wakeup = .client t keep := hk
      rw [hidle] at hk
      cases hk
  unfold wait
  dsimp only
  split
  · split
    · exact wait_edit h hd hc ha true _ fun t keep hk => by
        cases hk
        exact ⟨rfl, rfl⟩
    · exact hkeep _ false
  · exact hkeep _ true

/-- The stages of a request. -/
theorem stages_ok (h : d.Inv) (hidle : d.Idle) (hc : c ∈ d.clients) (irq : Nat) (req : Request) :
    Outcome (Work.Ok d c) (fun e => e.2.Ok d c) ((unmask irq (again { d, c, req }) >>= consume) >>= mask irq) := by
  have hsame : Edit d c (d.setClient c) c := {
    clients := rfl, name := rfl, registered := rfl, shared := rfl, counter := rfl, leftMasked := rfl
    masked := rfl
    idle := h.idle c hc
    last := h.last c hc
    served := fun hin => ⟨hin, rfl⟩
    line := h.live hc
    wakeup := fun t keep hk => absurd hk (hidle.ne t keep) }
  have hstart : Work.Ok d c { d, c, req } := ⟨(h.edit hc hsame).1, rfl, rfl, hidle, rfl⟩
  exact ((unmask_ok (again_ok hstart) h hc irq).bind fun w hw => consume_ok hw h hc).bind
    fun w hw => mask_ok hw h hc irq

theorem Inv.request (h : d.Inv) (hidle : d.Idle) (irq : Nat) (sender : ThreadId) (req : Request) (s : Bool) :
    (d.handleUserRequest irq sender req s).2.Inv ∧ (d.handleUserRequest irq sender req s).2.names = d.names := by
  unfold handleUserRequest
  split
  · exact ⟨h, rfl⟩
  · rename_i c hfind
    have hc := List.mem_of_find?_eq_some hfind
    have hout := stages_ok h hidle hc irq req
    split
    · rename_i hr
      exact back_spec (hout.error hr) h hc
    · rename_i hr
      have hw := hout.ok hr
      split
      · exact wait_spec hw h hc s
      · exact back_spec hw h hc

theorem Inv.detach {p : ThreadId → Bool} (h : d.Inv) (hd : d.detach p = some d') :
    d'.Inv ∧ d'.names ⊆ d.names := by
  unfold Irq.detach at hd
  split at hd
  · cases hd
  · rename_i c hfind
    obtain ⟨hp, l₁, l₂, hl, hfirst⟩ := List.find?_eq_some_iff_append.mp hfind
    have hc : c ∈ d.clients := List.mem_of_find?_eq_some hfind
    have ha := checkAutoConsume_spec d c
    have hrest : (d.checkAutoConsume c).clients.eraseP (fun c => p c.client) = l₁ ++ l₂ := by
      rw [ha.clients, hl, List.eraseP_append_right _ fun x hx => by simpa using hfirst x hx,
        List.eraseP_cons_of_pos (p := fun c : Client => p c.client) hp]
    have hsub : (l₁ ++ l₂).Sublist d.clients := by
      rw [hl]
      exact (List.sublist_cons_self c l₂).append_left l₁
    have hcount : ∀ q : Client → Bool,
        d.clients.countP q = (l₁ ++ l₂).countP q + (if q c then 1 else 0) := fun q => by
      rw [hl, List.countP_append, List.countP_append, List.countP_cons]
      omega
    have hlength : d.clients.length = (l₁ ++ l₂).length + 1 := by
      rw [hl, List.length_append, List.length_append, List.length_cons]
      omega
    cases hd
    refine ⟨⟨?_, ?_, fun hs => ?_, ?_, fun x hx => ?_, fun x hx => ?_, fun hs => ?_, fun hen => ?_,
      fun t keep hw => ?_⟩, ?_⟩
    · rw [names, hrest]
      exact (hsub.map _).nodup h.nodup
    · dsimp only
      rw [hrest, ha.registered, h.registered, hlength]
      omega
    · dsimp only
      rw [hrest]
      have hle := h.unshared (ha.shared ▸ hs)
      omega
    · dsimp only
      rw [hrest, ha.masked, h.masked, hcount, ha.leftMasked]
      split <;> push_cast <;> omega
    · rw [hrest] at hx
      exact h.idle x (hsub.mem hx)
    · rw [hrest] at hx
      rw [ha.counter]
      exact h.last x (hsub.mem hx)
    · obtain ⟨hin, hserved⟩ := ha.served hs
      rw [h.served hin, hcount] at hserved
      dsimp only
      rw [hrest, ha.counter]
      split at hserved <;> push_cast at hserved <;> omega
    · obtain ⟨hen', hin⟩ := ha.enabled hen
      obtain hlive | hpos := h.live hc hen'
      · exact .inl (hin hlive)
      · exact .inr (.inl (ha.masked ▸ hpos))
    · rw [hrest]
      rw [ha.wakeup] at hw
      split at hw
      · rename_i t' keep' hwake
        split at hw
        · cases hw
        · rename_i hne
          cases hw
          obtain ⟨x, hx, rfl, hwait⟩ := h.wakeup _ _ hwake
          rw [hl] at hx
          obtain hx | hx := List.mem_append.mp hx
          · exact ⟨x, List.mem_append_left _ hx, rfl, hwait⟩
          · obtain rfl | hx := List.mem_cons.mp hx
            · exact absurd rfl hne
            · exact ⟨x, List.mem_append_right _ hx, rfl, hwait⟩
      · rename_i hwake
        exact absurd hw (hwake _ _)
    · rw [names, hrest]
      exact (hsub.map _).subset

theorem Inv.attach (h : d.Inv) (hfresh : t ∉ d.names) {shared : Bool}
    (hshare : d.clients = [] ∨ shared = true) (r : Request) : (d.attach t shared r).Inv := by
  unfold Irq.attach
  refine ⟨List.nodup_cons.mpr ⟨hfresh, h.nodup⟩, ?_, fun hs => ?_, ?_, fun x hx hw => ?_, fun x hx => ?_,
    fun hs => ?_, fun _ => ?_, fun t keep hw => ?_⟩
  · dsimp only
    rw [h.registered, List.length_cons]
    rfl
  · obtain hnone | hs' := hshare
    · simp [hnone]
    · rw [hs'] at hs
      cases hs
  · dsimp only
    rw [h.masked, List.countP_cons_of_pos rfl]
    push_cast
    omega
  · obtain rfl | hx := List.mem_cons.mp hx
    · rfl
    · exact h.idle x hx hw
  · obtain rfl | hx := List.mem_cons.mp hx
    · exact le_refl _
    · exact h.last x hx
  · dsimp only
    rw [h.served hs, List.countP_cons_of_neg (by simp [Client.serving])]
  · refine .inr (.inl ?_)
    show 0 < d.masked + 1
    rw [h.masked]
    omega
  · obtain ⟨x, hx, hname, hwait⟩ := h.wakeup t keep hw
    exact ⟨x, List.mem_cons_of_mem _ hx, hname, hwait⟩

end Irq

namespace Server

variable {s s' : Server} {i j : Nat} {e : Event} {f : Fault}

/-- Every line is consistent, and a thread is attached to one line at most. -/
structure Inv (s : Server) : Prop where
  line : ∀ i < irqNums, (s i).Inv
  once : ∀ i < irqNums, ∀ j < irqNums, ∀ t ∈ (s i).names, t ∈ (s j).names → i = j

/-- What holds of the new line and of all lines before. -/
theorem setIrq_rule {P : Nat → Irq → Prop} (hd : P i d) (hs : ∀ j, P j (s j)) (j : Nat) : P j (s.setIrq i d j) := by
  unfold Server.setIrq
  by_cases hj : j = i
  · subst hj
    rwa [Function.update_self]
  · rw [Function.update_of_ne hj]
    exact hs j

/-- A step of the line `i` that attaches nobody. -/
theorem Inv.setIrq (h : s.Inv) (hd : d.Inv) (hnames : d.names ⊆ (s i).names) : (s.setIrq i d).Inv := by
  have hsub : ∀ j, (s.setIrq i d j).names ⊆ (s j).names :=
    setIrq_rule (P := fun j d => d.names ⊆ (s j).names) hnames fun _ => List.Subset.refl _
  refine ⟨?_, fun j hj k hk t ht ht' => h.once j hj k hk t (hsub j ht) (hsub k ht')⟩
  exact setIrq_rule (P := fun j d => j < irqNums → d.Inv) (fun _ => hd) h.line

theorem attached_iff : s.attached t = true ↔ ∃ i < irqNums, t ∈ (s i).names := by
  simp [attached, Irq.names]

theorem Inv.attach (h : s.Inv) (t : ThreadId) (desc : IrqDesc) (mem : Option Request) :
    Outcome (fun r => r.2.Inv) (fun f => f = .outOfBounds ∧ desc.num = irqNums + 1) (s.attach t desc mem) := by
  have hnum := desc.lt
  unfold Server.attach
  dsimp only
  generalize hn : (desc.num + 2 ^ 16 - 1) % 2 ^ 16 = num
  split
  · exact h
  · split
    · refine ⟨rfl, ?_⟩
      unfold irqNums at *
      omega
    · rename_i hlt
      split
      · exact h
      · split
        · exact h
        · rename_i hatt
          have hfresh : ∀ i < irqNums, t ∉ (s i).names := fun i hi ht =>
            hatt (attached_iff.mpr ⟨i, hi, ht⟩)
          split
          · exact h
          · rename_i hshare
            split
            · exact h
            · rename_i r
              have hlt : num < irqNums := by omega
              have hshare : (s num).clients = [] ∨ desc.shared = true := by
                simp only [Bool.and_eq_true, Bool.not_eq_true', List.isEmpty_eq_false_iff, Bool.or_eq_true] at hshare
                by_cases hnil : (s num).clients = []
                · exact .inl hnil
                · right
                  cases hsh : desc.shared with
                  | true => rfl
                  | false => exact absurd ⟨hnil, .inl hsh⟩ hshare
              have hinv := (h.line num hlt).attach (hfresh num hlt) hshare r
              show (s.setIrq num ((s num).attach t desc.shared r)).Inv
              refine ⟨?_, fun j hj k hk x hx hx' => ?_⟩
              · exact setIrq_rule (P := fun j d => j < irqNums → d.Inv) (fun _ => hinv) h.line
              · have hmem : ∀ l, x ∈ (s.setIrq num ((s num).attach t desc.shared r) l).names →
                    (l = num ∧ x = t) ∨ x ∈ (s l).names :=
                  setIrq_rule (P := fun l d => x ∈ d.names → (l = num ∧ x = t) ∨ x ∈ (s l).names)
                    (fun hl => (List.mem_cons.mp hl).imp_left fun e => ⟨rfl, e⟩) fun _ => .inr
                obtain ⟨rfl, rfl⟩ | hj' := hmem j hx
                · obtain ⟨rfl, -⟩ | hk' := hmem k hx'
                  · rfl
                  · exact absurd hk' (hfresh k hk)
                · obtain ⟨rfl, rfl⟩ | hk' := hmem k hx'
                  · exact absurd hj' (hfresh j hj)
                  · exact h.once j hj k hk x hj' hk'

theorem Inv.detach (h : s.Inv) (k : Int) (p : ThreadId → Bool) :
    Outcome (fun r => r.2.Inv ∧ 0 ≤ k ∧ k < irqNums) (fun f => f = .outOfBounds ∧ ¬ (0 ≤ k ∧ k < irqNums))
      (s.detach k p) := by
  unfold Server.detach
  split
  · rename_i hk
    split
    · exact ⟨h, hk⟩
    · rename_i d hd
      obtain ⟨hinv, hnames⟩ := (h.line k.toNat (by omega)).detach hd
      exact ⟨h.setIrq hinv hnames, hk⟩
  · rename_i hk
    exact ⟨rfl, hk⟩

theorem detachAll_outcome (h : s.Inv) (task : Nat) :
    Outcome Inv (fun _ => False) (s.detachAll task) := by
  unfold detachAll
  have hloop : ∀ l : List Nat, (∀ i ∈ l, i < irqNums) → ∀ s : Server, s.Inv → Outcome Inv (fun _ => False)
      (l.foldlM (fun s (i : Nat) => (s.detach i fun t => t.task = task).map Prod.snd) s) := by
    intro l
    induction l with
    | nil => exact fun _ s hs => hs
    | cons i l ih =>
      intro hl s hs
      have hi := hl i List.mem_cons_self
      have hd := (hs.detach i fun t => t.task = task).mono (fun _ hr => hr.1) fun _ hf => hf.2 ⟨by omega, by omega⟩
      rw [List.foldlM_cons]
      exact hd.map.bind fun s hs => ih (fun j hj => hl j (List.mem_cons_of_mem _ hj)) s hs
  exact hloop _ (fun i hi => List.mem_range.mp hi) s h

/-- The steps that fail: a number that the check of `attach` lets through or that `detach` does not check,
and the record of a client that has been detached after its wakeup. -/
def Event.Faults (s : Server) (f : Fault) : Event → Prop
  | .attach _ desc _ => f = .outOfBounds ∧ desc.num = irqNums + 1
  | .detach _ desc | .pass _ desc _ _ => f = .outOfBounds ∧ (desc.num = 0 ∨ irqNums < desc.num)
  | .detachAll _ => False
  | .interrupt i _ | .request i .. | .other i _ => f = .freedClient ∧ (s i).wakeup = .freed

theorem pass_outcome (h : s.Inv) (client newClient : ThreadId) (desc : IrqDesc) (mem : Option Request) :
    Outcome (fun r => r.2.Inv) (fun f => f = .outOfBounds ∧ (desc.num = 0 ∨ irqNums < desc.num))
      (s.pass client desc newClient mem) := by
  unfold pass
  refine ((h.detach (desc.num - 1) fun t => t = client).mono (fun _ hr => hr) fun f hf => ?_).bind fun r hr => ?_
  · have hk := hf.2
    exact ⟨hf.1, by omega⟩
  · have hk := hr.2
    split
    · refine (hr.1.attach newClient desc mem).mono (fun _ hi => hi) fun f hf => ?_
      have hnum := hf.2
      omega
    · exact hr.1

/-- A message to the thread of the line `i`. -/
theorem line_outcome (h : s.Inv) (hi : i < irqNums) (next : Request) {k : Irq → Irq}
    (hk : ∀ d : Irq, d.Inv → d.Idle → d.counter = (s i).counter → (k d).Inv ∧ (k d).names = d.names) :
    Outcome Inv (fun f => f = .freedClient ∧ (s i).wakeup = .freed)
      ((s i).finishWakeup next >>= fun d => .ok (s.setIrq i (k d))) := by
  refine (Irq.finishWakeup_outcome (h.line i hi) next).bind fun d hd => ?_
  obtain ⟨⟨hinv, hnames⟩, hidle, hcounter, -⟩ := hd
  obtain ⟨hinv', hnames'⟩ := hk d hinv hidle hcounter
  refine h.setIrq hinv' ?_
  rw [hnames', hnames]
  exact List.Subset.refl _

theorem step_outcome (h : s.Inv) (he : e.Enabled s) : Outcome Inv (fun f => e.Faults s f) (s.step e) := by
  cases e with
  | attach client desc mem => exact (h.attach client desc mem).map
  | detach client desc =>
    have hd := h.detach (desc.num - 1) fun t => t = client
    refine (hd.mono (fun _ hi => hi.1) fun f hf => ⟨hf.1, ?_⟩).map
    have hk := hf.2
    omega
  | detachAll task => exact (detachAll_outcome h task).mono (fun _ hi => hi) fun _ hf => hf
  | pass client desc newClient mem => exact (pass_outcome h client newClient desc mem).map
  | interrupt i sent =>
    exact line_outcome h he.1 _ fun d hd hidle hc => hd.interrupt hidle (hc ▸ he.2.2)
  | request i sender req sent =>
    exact line_outcome h he _ fun d hd hidle _ => hd.request hidle i sender req sent
  | other i next => exact line_outcome h he next fun d hd _ _ => ⟨hd, rfl⟩

/-- The table after the threads of the lines have started. -/
structure Booted (s : Server) : Prop where
  clients : ∀ i, (s i).clients = []
  counters : ∀ i, (s i).clientsRegistered = 0 ∧ (s i).masked = 0 ∧ (s i).leftMasked = 0
  inService : ∀ i, (s i).inService = false
  wakeup : ∀ i, (s i).wakeup = .none

theorem Booted.inv (h : Booted s) : s.Inv := by
  refine ⟨fun i _ => ?_, fun i _ j _ t ht => ?_⟩
  · have hc := h.clients i
    have hn := h.counters i
    refine ⟨?_, ?_, fun _ => ?_, ?_, ?_, ?_, fun hs => ?_, fun _ => .inr (.inr hc), fun t keep hw => ?_⟩
    · simp [Irq.names, hc]
    · simp [hc, hn]
    · simp [hc]
    · simp [hc, hn]
    · simp [hc]
    · simp [hc]
    · rw [h.inService] at hs
      cases hs
    · rw [h.wakeup] at hw
      cases hw
  · simp [Irq.names, h.clients] at ht

/-- The states of all runs. -/
inductive Reachable : Server → Prop
  | boot {s : Server} : Booted s → Reachable s
  | step {s s' : Server} {e : Event} : Reachable s → e.Enabled s → s.step e = .ok s' → Reachable s'

theorem Reachable.inv (h : Reachable s) : s.Inv := by
  induction h with
  | boot h => exact h.inv
  | step _ he hr ih => exact (step_outcome ih he).ok hr

/-- The lines of a machine, none of them in use. -/
def quiet : Server := fun _ => {
  available := true
  shared := false
  masked := 0
  inService := false
  clientsWaiting := 0
  clientsRegistered := 0
  clients := []
  counter := 0
  lthread := 3
  enabled := false
  wakeup := .none
  leftMasked := 0 }

theorem quiet_booted : Booted quiet :=
  ⟨fun _ => rfl, fun _ => ⟨rfl, rfl, rfl⟩, fun _ => rfl, fun _ => rfl⟩

theorem quiet_attach :
    quiet.step (.attach ⟨7, 1⟩ ⟨1, by decide, false⟩ (some ⟨0, false, false, false, false, false⟩)) =
      .ok (quiet.setIrq 0 ((quiet 0).attach ⟨7, 1⟩ false ⟨0, false, false, false, false, false⟩)) := by
  unfold step Server.attach
  rfl

end Server

end L4env.Omega0
