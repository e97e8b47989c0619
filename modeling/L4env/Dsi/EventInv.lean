import L4env.Util.Mask
import L4env.Dsi.Event

/-!
# Client lists of the DSI event thread

The client list of a socket, what the loop of `__set_event` does to it, and the invariant of the
event server with the client lists of all sockets.
-/

namespace L4env.Dsi.EventServer

variable {T : Type} {s s' : EventServer T} {id j c : Nat} {l l₁ l₂ : List Nat}
  {fails : T → EventMask → Bool} {events : EventMask} {fuel : Nat}

/-- The elements `l` are the client list of the socket. -/
structure Listed (s : EventServer T) (id : Nat) (l : List Nat) : Prop where
  list : IsSList s.next (s.socket id).clients l
  nodup : l.Nodup
  disjoint : (l.map s.events).Pairwise Mask.Disjoint
  waiting : (s.socket id).waiting = Mask.union (l.map s.events)

/-- The step only changes the client lists of the socket `id`, in elements of `l`. -/
structure Frame (s s' : EventServer T) (id : Nat) (l : List Nat) : Prop where
  client : s'.id = s.id
  other : ∀ j, j ≠ id → s'.socket j = s.socket j
  used : (s'.socket id).used = (s.socket id).used
  count : (s'.socket id).events = (s.socket id).events
  next : ∀ i, i ∉ l → s'.next i = s.next i
  mask : ∀ i, i ∉ l → s'.events i = s.events i

theorem Frame.refl (s : EventServer T) (id : Nat) (l : List Nat) : Frame s s id l :=
  ⟨rfl, fun _ _ => rfl, rfl, rfl, fun _ _ => rfl, fun _ _ => rfl⟩

theorem Frame.trans {s'' : EventServer T} {l' : List Nat} (h : Frame s s' id l)
    (h' : Frame s' s'' id l') (hl : ∀ i ∈ l', i ∈ l) : Frame s s'' id l where
  client := h'.client.trans h.client
  other j hj := (h'.other j hj).trans (h.other j hj)
  used := h'.used.trans h.used
  count := h'.count.trans h.count
  next i hi := (h'.next i fun hi' => hi (hl i hi')).trans (h.next i hi)
  mask i hi := (h'.mask i fun hi' => hi (hl i hi')).trans (h.mask i hi)

/-! ## The loop of `__set_event` -/

theorem removeClient_events (s : EventServer T) (id : Nat) (tmp : Option Nat) (c : Nat) :
    (s.removeClient id tmp c).events = Function.update s.events c 0 := by
  cases tmp <;> rfl

theorem map_update_of_notMem {m : EventMask} (hc : c ∉ l) :
    l.map (Function.update s.events c m) = l.map s.events := by
  refine List.map_congr_left fun i hi => Function.update_of_ne ?_ _ _
  rintro rfl
  exact hc hi

theorem removeClient_list (h : IsSList s.next (s.socket id).clients (l₁ ++ c :: l₂))
    (hnd : (l₁ ++ c :: l₂).Nodup) :
    IsSList (s.removeClient id l₁.getLast? c).next
      ((s.removeClient id l₁.getLast? c).socket id).clients (l₁ ++ l₂) ∧
    (s.removeClient id l₁.getLast? c).next c = l₂.head? ∧
    ∀ i, i ∉ l₁ ++ c :: l₂ → (s.removeClient id l₁.getLast? c).next i = s.next i := by
  have htail : IsSList s.next (s.next c) l₂ := h.tail_at
  rcases List.eq_nil_or_concat l₁ with rfl | ⟨l₀, t, rfl⟩
  · refine ⟨?_, htail.head_eq, fun _ _ => rfl⟩
    simpa [EventServer.removeClient, setSocket] using htail
  · rw [List.concat_eq_append] at h hnd ⊢
    have hnd' : t ∉ l₀ ∧ t ≠ c ∧ t ∉ l₂ := by
      simp only [List.append_assoc, List.singleton_append, List.nodup_append, List.nodup_cons,
        List.mem_cons, not_or] at hnd
      exact ⟨fun ht => hnd.2.2 t ht t (.inl rfl) rfl, hnd.2.1.1⟩
    rw [List.append_assoc, List.singleton_append] at h
    rw [List.getLast?_concat]
    refine ⟨?_, ?_, fun i hi => ?_⟩
    · have hcut := h.cut_write htail hnd'.1 hnd'.2.2
      simpa [EventServer.removeClient, setSocket] using hcut
    · have hne := hnd'.2.1.symm
      simpa [EventServer.removeClient, setSocket, hne] using htail.head_eq
    · have hne : i ≠ t := by
        rintro rfl
        simp at hi
      simp [EventServer.removeClient, setSocket, hne]

theorem Listed.removeClient (h : s.Listed id (l₁ ++ c :: l₂)) :
    (s.removeClient id l₁.getLast? c).Listed id (l₁ ++ l₂) ∧
    Frame s (s.removeClient id l₁.getLast? c) id (l₁ ++ c :: l₂) ∧
    (s.removeClient id l₁.getLast? c).next c = l₂.head? := by
  obtain ⟨hlist, hnext, hframe⟩ := removeClient_list h.list h.nodup
  have hnd : c ∉ l₁ ++ l₂ ∧ (l₁ ++ l₂).Nodup :=
    List.nodup_cons.mp (List.perm_middle.nodup_iff.mp h.nodup)
  have hsub : (l₁ ++ l₂).Sublist (l₁ ++ c :: l₂) := by simp
  have hmask := removeClient_events s id l₁.getLast? c
  have hmap : (l₁ ++ l₂).map (s.removeClient id l₁.getLast? c).events = (l₁ ++ l₂).map s.events := by
    rw [hmask, map_update_of_notMem hnd.1]
  refine ⟨⟨hlist, hnd.2, ?_, ?_⟩, ⟨?_, ?_, ?_, ?_, hframe, ?_⟩, hnext⟩
  · rw [hmap]
    exact h.disjoint.sublist (hsub.map _)
  · have hunion := h.disjoint
    rw [List.map_append, List.map_cons] at hunion
    rw [hmap, List.map_append, ← Mask.union_and_not hunion, ← List.map_cons, ← List.map_append,
      ← h.waiting]
    cases l₁.getLast? <;> simp [EventServer.removeClient, setSocket]
  · cases l₁.getLast? <;> rfl
  · intro j hj
    cases l₁.getLast? <;> simp [EventServer.removeClient, setSocket, hj]
  · cases l₁.getLast? <;> simp [EventServer.removeClient, setSocket]
  · cases l₁.getLast? <;> simp [EventServer.removeClient, setSocket]
  · intro i hi
    rw [hmask, Function.update_of_ne]
    rintro rfl
    simp at hi

/-- The client waits for one of the events. -/
def hits (s : EventServer T) (events : EventMask) (c : Nat) : Bool :=
  decide (s.events c &&& events ≠ 0)

/-- The wakeup of a client of the socket `id`. -/
def wakeup (s : EventServer T) (id : Nat) (events : EventMask) (c : Nat) : Wakeup T :=
  ⟨id, s.id c, s.events c, s.events c &&& events⟩

/-- What the loop leads to: the clients of `l₂` that are hit are woken up, in order. -/
structure Woken (s : EventServer T) (id : Nat) (events : EventMask) (l₁ l₂ : List Nat)
    (wakeups : List (Wakeup T)) (s' : EventServer T) : Prop where
  wakeups : wakeups = (l₂.filter (s.hits events)).map (s.wakeup id events)
  listed : s'.Listed id (l₁ ++ l₂.filter fun c => !s.hits events c)
  frame : Frame s s' id (l₁ ++ l₂)
  stay : ∀ i ∈ l₁ ++ l₂.filter fun c => !s.hits events c, s'.events i = s.events i
  free : ∀ i ∈ l₂, s.hits events i = true → s'.events i = 0

/-- A client that is hit is taken out, and the loop goes on. -/
theorem Woken.cons_hit {wakeups : List (Wakeup T)} (h : s.Listed id (l₁ ++ c :: l₂))
    (hhit : s.hits events c = true)
    (hw : Woken (s.removeClient id l₁.getLast? c) id events l₁ l₂ wakeups s') :
    Woken s id events l₁ (c :: l₂) (s.wakeup id events c :: wakeups) s' := by
  obtain ⟨-, hframe, -⟩ := h.removeClient
  have hnot : c ∉ l₁ ++ l₂ := (List.nodup_cons.mp (List.perm_middle.nodup_iff.mp h.nodup)).1
  have hmask : ∀ i ∈ l₁ ++ l₂, (s.removeClient id l₁.getLast? c).events i = s.events i := by
    intro i hi
    rw [removeClient_events, Function.update_of_ne]
    rintro rfl
    exact hnot hi
  have hhits : ∀ i ∈ l₂, (s.removeClient id l₁.getLast? c).hits events i = s.hits events i := by
    intro i hi
    rw [hits, hits, hmask i (List.mem_append_right _ hi)]
  have hstay : (l₂.filter fun i => !(s.removeClient id l₁.getLast? c).hits events i) =
      l₂.filter fun i => !s.hits events i := by
    refine List.filter_congr fun i hi => ?_
    rw [hhits i hi]
  have hlisted := hw.listed
  have hkeep := hw.stay
  rw [hstay] at hlisted hkeep
  refine ⟨?_, ?_, hframe.trans hw.frame ?_, ?_, ?_⟩
  · rw [hw.wakeups, List.filter_cons_of_pos hhit, List.map_cons, List.filter_congr hhits]
    congr 1
    refine List.map_congr_left fun i hi => ?_
    rw [wakeup, wakeup, hframe.client, hmask i (List.mem_append_right _ (List.mem_of_mem_filter hi))]
  · rwa [List.filter_cons_of_neg (by simp [hhit])]
  · intro i hi
    exact (List.Sublist.append_left (List.sublist_cons_self c l₂) l₁).mem hi
  · rw [List.filter_cons_of_neg (by simp [hhit])]
    intro i hi
    rw [hkeep i hi, hmask i]
    rcases List.mem_append.mp hi with hi | hi
    · exact List.mem_append_left _ hi
    · exact List.mem_append_right _ (List.mem_of_mem_filter hi)
  · intro i hi hhit'
    rcases List.mem_cons.mp hi with rfl | hi
    · rw [hw.frame.mask i hnot, removeClient_events, Function.update_self]
    · exact hw.free i hi (by rw [hhits i hi, hhit'])

theorem Woken.cons_miss {wakeups : List (Wakeup T)} (hhit : s.hits events c = false)
    (hw : Woken s id events (l₁ ++ [c]) l₂ wakeups s') :
    Woken s id events l₁ (c :: l₂) wakeups s' := by
  have hfilter : ((c :: l₂).filter fun i => !s.hits events i) =
      c :: l₂.filter fun i => !s.hits events i := List.filter_cons_of_pos (by simp [hhit])
  refine ⟨?_, ?_, ?_, ?_, ?_⟩
  · rw [hw.wakeups, List.filter_cons_of_neg (by simp [hhit])]
  · rw [hfilter]
    simpa using hw.listed
  · simpa using hw.frame
  · rw [hfilter]
    simpa using hw.stay
  · intro i hi hhit'
    rcases List.mem_cons.mp hi with rfl | hi
    · rw [hhit] at hhit'
      cases hhit'
    · exact hw.free i hi hhit'

theorem Listed.wakeLoop {error : Option Error} {wakeups : List (Wakeup T)}
    (h : s.Listed id (l₁ ++ l₂)) : ∃ error' wakeups' s', Woken s id events l₁ l₂ wakeups' s' ∧
      ∀ fuel, l₂.length < fuel →
        EventServer.wakeLoop fails id events fuel l₁.getLast? l₂.head? error wakeups s =
          some (error', wakeups ++ wakeups', s') := by
  induction l₂ generalizing l₁ error wakeups s with
  | nil =>
    refine ⟨error, [], s, ⟨rfl, by simpa using h, Frame.refl s id _, fun _ _ => rfl, nofun⟩, ?_⟩
    intro fuel hf
    obtain ⟨fuel, rfl⟩ : ∃ n, fuel = n + 1 := ⟨fuel - 1, by simp at hf; omega⟩
    rw [List.head?_nil, EventServer.wakeLoop, List.append_nil]
  | cons c l₂ ih =>
    cases hhit : s.hits events c with
    | true =>
      obtain ⟨hlisted, hframe, hnext⟩ := h.removeClient
      obtain ⟨error', wakeups', s', hw, heq⟩ := ih hlisted
      refine ⟨error', s.wakeup id events c :: wakeups', s', hw.cons_hit h hhit, fun fuel hf => ?_⟩
      obtain ⟨fuel, rfl⟩ : ∃ n, fuel = n + 1 := ⟨fuel - 1, by simp at hf; omega⟩
      rw [List.head?_cons, EventServer.wakeLoop, if_pos (of_decide_eq_true hhit)]
      simp only [hnext]
      rw [heq fuel (by simpa using hf), List.append_assoc]
      rfl
    | false =>
      have hnext : s.next c = l₂.head? := h.list.tail_at.head_eq
      have hlast : some c = (l₁ ++ [c]).getLast? := by rw [List.getLast?_concat]
      have hl : s.Listed id ((l₁ ++ [c]) ++ l₂) := by simpa using h
      obtain ⟨error', wakeups', s', hw, heq⟩ := ih hl
      refine ⟨error', wakeups', s', hw.cons_miss hhit, fun fuel hf => ?_⟩
      obtain ⟨fuel, rfl⟩ : ∃ n, fuel = n + 1 := ⟨fuel - 1, by simp at hf; omega⟩
      rw [List.head?_cons, EventServer.wakeLoop, if_neg (of_decide_eq_false hhit), hnext, hlast]
      exact heq fuel (by simpa using hf)

/-! ## The invariant -/

/-- The client list of each socket. -/
structure Inv (s : EventServer T) (q : Nat → List Nat) : Prop where
  listed : ∀ id, s.Listed id (q id)
  disjoint : ∀ id j c, c ∈ q id → c ∈ q j → id = j
  lt : ∀ id, ∀ c ∈ q id, c < maxClients
  used : ∀ id, ∀ c ∈ q id, ∃ i < maxEvents, (s.events c).getLsbD i = true
  free : ∀ c < maxClients, s.events c ≠ 0 → ∃ id, c ∈ q id
  valid : ∀ id, q id ≠ [] → s.validSocket id = true

variable {q q' : Nat → List Nat}

theorem Inv.length_le (h : Inv s q) (id : Nat) : (q id).length ≤ maxEvents := by
  have hle := Mask.length_le (h.listed id).disjoint (k := maxEvents) ?_
  · rwa [List.length_map] at hle
  · intro m hm
    obtain ⟨c, hc, rfl⟩ := List.mem_map.mp hm
    exact h.used id c hc

/-- The elements of the client list of another socket are not touched. -/
theorem Listed.frame (h : s.Listed j l) (hj : s'.socket j = s.socket j)
    (hnext : ∀ c ∈ l, s'.next c = s.next c) (hmask : ∀ c ∈ l, s'.events c = s.events c) :
    s'.Listed j l := by
  have hmap : l.map s'.events = l.map s.events := List.map_congr_left hmask
  refine ⟨?_, h.nodup, hmap ▸ h.disjoint, ?_⟩
  · rw [hj]
    exact h.list.congr hnext
  · rw [hj, hmap]
    exact h.waiting

theorem validSocket_of_used (hused : (s'.socket id).used = (s.socket id).used) :
    s'.validSocket id = s.validSocket id := by
  rw [validSocket, validSocket, hused]

/-- A change of the event counters. -/
theorem Inv.setCount (h : Inv s q) (id : Nat) (count : Nat → Nat) :
    Inv (s.setSocket id { s.socket id with events := count }) q := by
  have hsocket : ∀ j, ((s.setSocket id { s.socket id with events := count }).socket j).clients =
      (s.socket j).clients ∧ ((s.setSocket id { s.socket id with events := count }).socket j).waiting =
      (s.socket j).waiting ∧ ((s.setSocket id { s.socket id with events := count }).socket j).used =
      (s.socket j).used := by
    intro j
    by_cases hj : j = id
    · subst hj
      simp [setSocket]
    · simp [setSocket, hj]
  refine ⟨fun j => ⟨?_, (h.listed j).nodup, (h.listed j).disjoint, ?_⟩, h.disjoint, h.lt, h.used,
    h.free, fun j hj => ?_⟩
  · rw [(hsocket j).1]
    exact (h.listed j).list
  · rw [(hsocket j).2.1]
    exact (h.listed j).waiting
  · rw [validSocket_of_used (hsocket j).2.2]
    exact h.valid j hj

theorem mem_of_mem_update {l : List Nat} (hl : ∀ c ∈ l, c ∈ q id)
    (hc : c ∈ Function.update q id l j) : c ∈ q j := by
  by_cases hj : j = id
  · subst hj
    rw [Function.update_self] at hc
    exact hl c hc
  · rwa [Function.update_of_ne hj] at hc

/-- The clients that are hit leave the list of the socket. -/
theorem Inv.woken {wakeups : List (Wakeup T)} (h : Inv s q)
    (hw : Woken s id events [] (q id) wakeups s') :
    Inv s' (Function.update q id ((q id).filter fun c => !s.hits events c)) := by
  have hmem : ∀ {j c}, c ∈ Function.update q id ((q id).filter fun c => !s.hits events c) j →
      c ∈ q j := mem_of_mem_update fun c hc => List.mem_of_mem_filter hc
  have hout : ∀ {j c}, j ≠ id → c ∈ q j → c ∉ q id := fun hj hc hid => hj (h.disjoint _ _ _ hc hid)
  have hmask : ∀ {j c}, c ∈ Function.update q id ((q id).filter fun c => !s.hits events c) j →
      s'.events c = s.events c := by
    intro j c hc
    by_cases hj : j = id
    · rw [hj, Function.update_self] at hc
      exact hw.stay c hc
    · exact hw.frame.mask c (hout hj (hmem hc))
  refine ⟨fun j => ?_, fun j k c hj hk => h.disjoint j k c (hmem hj) (hmem hk),
    fun j c hc => h.lt j c (hmem hc), fun j c hc => ?_, fun c hc hne => ?_, fun j hj => ?_⟩
  · by_cases hj : j = id
    · rw [hj, Function.update_self]
      exact hw.listed
    · rw [Function.update_of_ne hj]
      exact (h.listed j).frame (hw.frame.other j hj) (fun c hc => hw.frame.next c (hout hj hc))
        fun c hc => hw.frame.mask c (hout hj hc)
  · rw [hmask hc]
    exact h.used j c (hmem hc)
  · by_cases hcid : c ∈ q id
    · refine ⟨id, ?_⟩
      rw [Function.update_self, List.mem_filter]
      refine ⟨hcid, ?_⟩
      cases hhit : s.hits events c with
      | true => exact absurd (hw.free c hcid hhit) hne
      | false => rfl
    · rw [hw.frame.mask c hcid] at hne
      obtain ⟨j, hj⟩ := h.free c hc hne
      have hjid : j ≠ id := fun e => hcid (e ▸ hj)
      exact ⟨j, by rwa [Function.update_of_ne hjid]⟩
  · have hq : q j ≠ [] := by
      obtain ⟨c, hc⟩ := List.exists_mem_of_ne_nil _ hj
      exact List.ne_nil_of_mem (hmem hc)
    rw [← h.valid j hq]
    refine validSocket_of_used ?_
    by_cases hjid : j = id
    · rw [hjid]
      exact hw.frame.used
    · rw [hw.frame.other j hjid]

/-! ## A new client -/

theorem findClient_some {n i : Nat} (h : s.findClient n i = some c) :
    c < i + n ∧ s.events c = 0 := by
  induction n generalizing i with
  | zero => cases h
  | succ n ih =>
    rw [findClient] at h
    split at h
    · cases h
      exact ⟨by omega, ‹_›⟩
    · have hrest := ih h
      exact ⟨by omega, hrest.2⟩

theorem findClient_none {n i : Nat} (h : s.findClient n i = none) :
    ∀ c, i ≤ c → c < i + n → s.events c ≠ 0 := by
  induction n generalizing i with
  | zero =>
    intro c hic hc
    omega
  | succ n ih =>
    rw [findClient] at h
    split at h
    · cases h
    · intro c hic hc
      rcases Nat.eq_or_lt_of_le hic with rfl | hlt
      · assumption
      · exact ih h c hlt (by omega)

/-- There are enough descriptors for all clients that can wait. -/
theorem Inv.findClient (h : Inv s q) (hid : s.validSocket id = true)
    (hlt : (q id).length < maxEvents) : ∃ c, s.findClient maxClients 0 = some c := by
  rw [← Option.isSome_iff_exists, Option.isSome_iff_ne_none]
  intro hnone
  have hvalid : ∀ {j}, s.validSocket j = true → j < maxSockets := by
    intro j hj
    simp only [validSocket, Bool.and_eq_true, decide_eq_true_eq] at hj
    exact hj.1
  have hsub : Finset.range maxClients ⊆
      (Finset.range maxSockets).biUnion fun j => (q j).toFinset := by
    intro c hc
    rw [Finset.mem_range] at hc
    have hne : s.events c ≠ 0 :=
      findClient_none hnone c (Nat.zero_le c) (by rwa [Nat.zero_add])
    rw [Finset.mem_biUnion]
    exact (h.free c hc hne).imp fun j hj =>
      ⟨Finset.mem_range.mpr (hvalid (h.valid j (List.ne_nil_of_mem hj))), List.mem_toFinset.mpr hj⟩
  have hcard := (Finset.card_le_card hsub).trans Finset.card_biUnion_le
  have hsum : ∑ j ∈ Finset.range maxSockets, (q j).toFinset.card <
      ∑ _j ∈ Finset.range maxSockets, maxEvents := by
    refine Finset.sum_lt_sum (fun j _ => ?_) ⟨id, Finset.mem_range.mpr (hvalid hid), ?_⟩
    · exact (List.toFinset_card_le _).trans (h.length_le j)
    · exact lt_of_le_of_lt (List.toFinset_card_le _) hlt
  rw [Finset.card_range] at hcard
  rw [Finset.sum_const, Finset.card_range, smul_eq_mul] at hsum
  rw [maxClients, Nat.mul_comm] at hcard
  exact absurd (lt_of_le_of_lt hcard hsum) (lt_irrefl _)

variable {i : Nat}

/-- The element `i` is set up and linked at the end of the client list of the socket. -/
theorem enqueueClient_list (client : T) (events : EventMask) (h : IsSList s.next (s.socket id).clients l) (hi : i ∉ l)
    (hnd : l.Nodup) :
    ∃ s', (∀ fuel, l.length ≤ fuel →
        (s.setupClient i client events).enqueueClient fuel id i = some s') ∧
      IsSList s'.next (s'.socket id).clients (l ++ [i]) ∧
      (∀ c, c ∉ l → c ≠ i → s'.next c = s.next c) ∧
      s'.id = Function.update s.id i client ∧ s'.events = Function.update s.events i events ∧
      (∀ j, j ≠ id → s'.socket j = s.socket j) ∧
      (s'.socket id).used = (s.socket id).used ∧ (s'.socket id).events = (s.socket id).events ∧
      (s'.socket id).waiting = (s.socket id).waiting := by
  have hclear : IsSList (Function.update s.next i none) (s.socket id).clients l := by
    refine h.congr fun c hc => Function.update_of_ne ?_ _ _
    rintro rfl
    exact hi hc
  have hnew : IsSList (Function.update s.next i none) (some i) [i] :=
    ⟨rfl, Function.update_self _ _ _⟩
  cases l with
  | nil =>
    have hnone : (s.socket id).clients = none := h
    have heq : ∀ fuel, ([] : List Nat).length ≤ fuel →
        (s.setupClient i client events).enqueueClient fuel id i =
          some ((s.setupClient i client events).setSocket id
            { s.socket id with clients := some i }) := by
      intro fuel _
      simp only [enqueueClient, setupClient, hnone]
    refine ⟨_, heq, ?_, ?_, rfl, rfl, ?_, ?_, ?_, ?_⟩
    · simpa [setSocket, setupClient] using hnew
    · exact fun c _ hci => Function.update_of_ne hci _ _
    · exact fun j hj => Function.update_of_ne hj _ _
    all_goals simp [setSocket]
  | cons c l =>
    have hsome : (s.socket id).clients = some c := h.1
    obtain ⟨l₀, t, hl⟩ : ∃ l₀ t, c :: l = l₀ ++ [t] :=
      ⟨(c :: l).dropLast, (c :: l).getLast (by simp), (List.dropLast_append_getLast _).symm⟩
    have heq : ∀ fuel, (c :: l).length ≤ fuel →
        (s.setupClient i client events).enqueueClient fuel id i =
          some { s.setupClient i client events with
            next := Function.update (Function.update s.next i none) t (some i) } := by
      intro fuel hf
      have hwalk : walkWhile (Function.update s.next i none) (fun _ => true) fuel c = some t := by
        rw [hclear.walkWhile_last (by simpa using hf), hl, List.getLast?_concat]
      simp only [enqueueClient, setupClient, hsome, hwalk, Option.map_some]
    refine ⟨_, heq, ?_, ?_, rfl, rfl, fun _ _ => rfl, rfl, rfl, rfl⟩
    · rw [hl] at hclear hnd hi ⊢
      have htl : t ∉ l₀ := fun ht => (List.nodup_append.mp hnd).2.2 t ht t (by simp) rfl
      have hti : t ∉ [i] := by
        rintro (_ | ⟨_, ⟨⟩⟩)
        exact hi (by simp)
      have hcut := hclear.cut_write hnew htl hti
      simpa [hsome, setupClient] using hcut
    · intro d hd hdi
      have hdt : d ≠ t := by
        rintro rfl
        exact hd (by simp [hl])
      simp [hdt, hdi]

/-- A client that waits for at least one event is enqueued. -/
theorem Inv.enqueue (client : T) (h : Inv s q) (hid : s.validSocket id = true)
    (hbusy : (s.socket id).waiting &&& events = 0)
    (hne : ∃ b < maxEvents, events.getLsbD b = true) (hi : i < maxClients)
    (hfree : s.events i = 0) :
    ∃ s', (∀ fuel, maxEvents ≤ fuel →
        (s.setupClient i client events).enqueueClient fuel id i = some s') ∧
      Inv (s'.markWaiting id events) (Function.update q id (q id ++ [i])) ∧
      s'.id = Function.update s.id i client ∧ s'.events = Function.update s.events i events ∧
      ∀ j, ((s'.markWaiting id events).socket j).events = (s.socket j).events := by
  have hnot : ∀ j, i ∉ q j := by
    intro j hj
    obtain ⟨b, -, hb⟩ := h.used j i hj
    simp [hfree] at hb
  obtain ⟨s', heq, hlist, hnext, hclient, hmask, hother, hused, hcount, hwaiting⟩ :=
    enqueueClient_list client events (h.listed id).list (hnot id) (h.listed id).nodup
  have hold : ∀ {j c}, c ∈ q j → s'.events c = s.events c := by
    intro j c hc
    rw [hmask, Function.update_of_ne]
    rintro rfl
    exact hnot j hc
  have hmap : ∀ j, (q j).map s'.events = (q j).map s.events := fun j =>
    List.map_congr_left fun c hc => hold hc
  have hself : s'.events i = events := by rw [hmask, Function.update_self]
  have hfresh : ∀ c ∈ q id, Mask.Disjoint (s.events c) events := by
    rw [(h.listed id).waiting, Mask.union_and_eq_zero] at hbusy
    exact fun c hc => hbusy _ (List.mem_map_of_mem hc)
  have hmem : ∀ {j c}, c ∈ Function.update q id (q id ++ [i]) j ↔
      c ∈ q j ∨ j = id ∧ c = i := by
    intro j c
    by_cases hj : j = id
    · subst hj
      simp
    · simp [hj]
  have hsocket : ∀ j, ((s'.markWaiting id events).socket j).used = (s.socket j).used ∧
      ((s'.markWaiting id events).socket j).events = (s.socket j).events := by
    intro j
    by_cases hj : j = id
    · subst hj
      simp [markWaiting, setSocket, hused, hcount]
    · simp [markWaiting, setSocket, hj, hother j hj]
  refine ⟨s', fun fuel hf => heq fuel ((h.length_le id).trans hf), ⟨fun j => ?_, fun j k c hc hk => ?_, fun j c hc => ?_, fun j c hc => ?_,
    fun c hc hne' => ?_, fun j hj => ?_⟩, hclient, hmask, fun j => (hsocket j).2⟩
  · by_cases hj : j = id
    · subst hj
      rw [Function.update_self]
      have hnodup : (q j ++ [i]).Nodup := (List.perm_append_singleton i (q j)).nodup_iff.mpr
        (List.nodup_cons.mpr ⟨hnot j, (h.listed j).nodup⟩)
      refine ⟨?_, hnodup, ?_, ?_⟩
      · simpa [markWaiting, setSocket] using hlist
      · simp only [markWaiting, setSocket, List.map_append, List.map_cons, List.map_nil, hmap, hself]
        refine List.pairwise_append.mpr ⟨(h.listed j).disjoint, List.pairwise_singleton _ _, ?_⟩
        intro m hm m' hm'
        obtain ⟨c, hc, rfl⟩ := List.mem_map.mp hm
        rw [List.mem_singleton.mp hm']
        exact hfresh c hc
      · simp only [markWaiting, setSocket, Function.update_self, List.map_append, List.map_cons,
          List.map_nil, hmap, hself, Mask.union_append, Mask.union_cons, Mask.union_nil, hwaiting,
          (h.listed j).waiting]
        exact congrArg _ BitVec.or_zero.symm
    · rw [Function.update_of_ne hj]
      refine (h.listed j).frame ?_ (fun c hc => hnext c ?_ ?_) fun c hc => hold hc
      · simp [markWaiting, setSocket, hj, hother j hj]
      · exact fun hcid => hj (h.disjoint j id c hc hcid)
      · rintro rfl
        exact hnot j hc
  · rcases hmem.mp hc with hcj | ⟨hj, hci⟩
    · rcases hmem.mp hk with hck | ⟨-, hci⟩
      · exact h.disjoint j k c hcj hck
      · exact absurd (hci ▸ hcj) (hnot j)
    · rcases hmem.mp hk with hck | ⟨hk, -⟩
      · exact absurd (hci ▸ hck) (hnot k)
      · rw [hj, hk]
  · rcases hmem.mp hc with hc | ⟨-, rfl⟩
    · exact h.lt j c hc
    · exact hi
  · rcases hmem.mp hc with hc | ⟨-, rfl⟩
    · rw [show (s'.markWaiting id events).events c = s.events c from hold hc]
      exact h.used j c hc
    · rwa [show (s'.markWaiting id events).events c = events from hself]
  · by_cases hci : c = i
    · exact ⟨id, hmem.mpr (.inr ⟨rfl, hci⟩)⟩
    · have hsame : (s'.markWaiting id events).events c = s.events c := by
        rw [markWaiting, setSocket, hmask, Function.update_of_ne hci]
      rw [hsame] at hne'
      obtain ⟨j, hj⟩ := h.free c hc hne'
      exact ⟨j, hmem.mpr (.inl hj)⟩
  · rw [validSocket_of_used (hsocket j).1]
    obtain ⟨c, hc⟩ := List.exists_mem_of_ne_nil _ hj
    rcases hmem.mp hc with hc | ⟨rfl, -⟩
    · exact h.valid j (List.ne_nil_of_mem hc)
    · exact hid

end L4env.Dsi.EventServer
