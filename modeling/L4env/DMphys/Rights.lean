import L4env.DMphys.MemMapRun
import L4env.DMphys.PoolRun
import L4env.DMphys.Server

/-!
# Access rights

What a request does to the dataspace descriptors (`Effect`), and from it where the rights of a client
come from: some task gave them with a share request, and they were not revoked since.
-/

namespace L4env.DMphys

/-- The descriptors after `d` was written. -/
def putIn (d : Dataspace) (l : List Dataspace) : List Dataspace :=
  l.map fun e => if e.id = d.id then d else e

/-- The descriptors after the dataspace `id` was released. -/
def dropFrom (id : Nat) (l : List Dataspace) : List Dataspace := l.filter fun e => e.id ≠ id

/-- What a request does to the dataspace descriptors. -/
inductive Effect (v : Server) (caller : ThreadId) : Request → Reply → List Dataspace → Prop
  | same {req reply} (h : reply = .done → ∀ id client flags, req ≠ .revoke id client flags) :
    Effect v caller req reply v.dataspaces
  | opened {req reply} (d : Dataspace) (hc : d.clients = []) (hd : ∀ id client flags,
      req ≠ .revoke id client flags) : Effect v caller req reply (d :: v.dataspaces)
  | closed {req reply} (id : Nat) (hd : ∀ id client flags, req ≠ .revoke id client flags) :
    Effect v caller req reply (dropFrom id v.dataspaces)
  | resized {req reply} (d : Dataspace) (size : Nat) (h : v.get d.id = some d)
    (hd : ∀ id client flags, req ≠ .revoke id client flags) :
    Effect v caller req reply (putIn { d with size := size } v.dataspaces)
  | shared (d : Dataspace) (client : ThreadId) (flags : Nat)
    (h : v.getCheckRights d.id caller (rightsOf flags) = .ok d) :
    Effect v caller (.share d.id client flags) .done
      (putIn (d.addClient client (rightsOf flags)).2 v.dataspaces)
  | kept (d : Dataspace) (client : ThreadId) (flags : Nat) (hd : v.get d.id = some d)
    (h : d.getRights client = 0) : Effect v caller (.revoke d.id client flags) .done v.dataspaces
  | removed (d : Dataspace) (client : ThreadId) (flags : Nat) (hd : v.get d.id = some d) :
    Effect v caller (.revoke d.id client flags) .done (putIn (d.removeClient client) v.dataspaces)
  | restricted (d : Dataspace) (client : ThreadId) (flags : Nat) (hd : v.get d.id = some d)
    (hc : d.getRights client ≠ 0) : Effect v caller (.revoke d.id client flags) .done
      (putIn (d.setRights client (d.getRights client ^^^ (d.getRights client &&& rightsOf flags)))
        v.dataspaces)
  | transferred (d : Dataspace) (newOwner : ThreadId) (hd : v.get d.id = some d) :
    Effect v caller (.transfer d.id newOwner) .done
      (putIn { d with owner := newOwner } v.dataspaces)

section
variable {v : Server} {caller : ThreadId} {α β : Type}

/-- A step whose result does not matter. -/
theorem meets_any (r : Except Panic α) : Meets r (fun _ => True) (fun _ => True) := by
  cases r <;> trivial

theorem Meets.skip {r : Except Panic α} {f : α → Except Panic β} {Q : β → Prop}
    (h : ∀ x, Meets (f x) Q (fun _ => True)) : Meets (r >>= f) Q (fun _ => True) :=
  (meets_any r).bind fun x _ => h x

theorem get_id {id : Nat} {d : Dataspace} (h : v.get id = some d) : d.id = id := by
  simpa using List.find?_some h

theorem getCheckRights_get {id rights : Nat} {d : Dataspace}
    (h : v.getCheckRights id caller rights = .ok d) :
    v.get id = some d ∧ (d.checkRights caller rights = true ∨ d.isOwner caller = true) := by
  unfold Server.getCheckRights at h
  split at h
  · cases h
  next d' hd =>
    split at h
    next hc =>
      cases h
      exact ⟨hd, by simpa using hc⟩
    · cases h

theorem getCheckOwner_get {id : Nat} {d : Dataspace} (h : v.getCheckOwner id caller = .ok d) :
    v.get id = some d := by
  unfold Server.getCheckOwner at h
  split at h
  · cases h
  · split at h
    · cases h; assumption
    · cases h

/-- `__create_ds` leaves the descriptors alone or adds one without clients. -/
theorem createDs_meets (owner : ThreadId) (pool addr size align flags : Nat) :
    Meets (v.createDs owner pool addr size align flags)
      (fun r => r.2.dataspaces = v.dataspaces ∨
        ∃ d : Dataspace, d.clients = [] ∧ r.2.dataspaces = d :: v.dataspaces) (fun _ => True) := by
  unfold Server.createDs
  refine Meets.skip fun s => Meets.skip fun s => ?_
  split
  · exact .inl rfl
  · refine Meets.skip ?_
    rintro ⟨pages, s⟩
    cases pages with
    | none => exact .inl rfl
    | some pages => exact Meets.skip fun size => Meets.skip fun s => .inr ⟨_, rfl, rfl⟩

theorem closeDs_meets (d : Dataspace) :
    Meets (v.closeDs d) (fun v' => v'.dataspaces = dropFrom d.id v.dataspaces) (fun _ => True) :=
  Meets.skip fun _ => Meets.skip fun _ => rfl

theorem createCopy_meets (src : Dataspace) (owner : ThreadId)
    (pool dstAddr dstSize dstAlign srcOffs dstOffs num flags : Nat) :
    Meets (v.createCopy src owner pool dstAddr dstSize dstAlign srcOffs dstOffs num flags)
      (fun r => r.2.dataspaces = v.dataspaces ∨
        ∃ d : Dataspace, d.clients = [] ∧ r.2.dataspaces = d :: v.dataspaces) (fun _ => True) := by
  refine (createDs_meets owner pool dstAddr dstSize dstAlign flags).bind ?_
  rintro ⟨r, v'⟩ h
  cases r with
  | error e => exact h
  | ok id =>
    simp only
    split
    · trivial
    · exact Meets.skip fun _ => Meets.skip fun _ => h

/-- The effect of a request that opens a dataspace or does nothing. -/
theorem effect_open {req : Request} (hreq : ∀ id client flags, req ≠ .revoke id client flags)
    {l : List Dataspace} {reply : Reply}
    (h : l = v.dataspaces ∨ ∃ d : Dataspace, d.clients = [] ∧ l = d :: v.dataspaces) :
    Effect v caller req reply l := by
  rcases h with rfl | ⟨d, hc, rfl⟩
  · exact .same fun _ => hreq
  · exact .opened d hc hreq

theorem handle_effect (slab : Slab) (req : Request) :
    Meets (v.handle slab caller req) (fun r => Effect v caller req r.1 r.2.dataspaces)
      (fun _ => True) := by
  unfold Server.handle
  cases req with
  | memOpen size align flags =>
    refine Meets.bind (createDs_meets _ _ _ _ _ _) fun r h => ?_
    exact effect_open (by simp) h
  | dmphysOpen pool addr size align flags =>
    simp only [Server.dmphysOpen]
    split
    · exact .same (by simp)
    · refine Meets.bind (createDs_meets _ _ _ _ _ _) fun r h => ?_
      exact effect_open (by simp) h
  | close id =>
    simp only [Server.close]
    split
    · exact .same (by simp)
    next d hd =>
      refine Meets.bind (Q := fun r => r.2.dataspaces = dropFrom d.id v.dataspaces) ?_ fun r h => ?_
      · exact (closeDs_meets d).bind fun v' h => h
      · simp only [meets_pure, h]
        exact .closed d.id (by simp)
  | resize id newSize =>
    simp only [Server.resize]
    split
    · exact .same (by simp)
    next d hd =>
      obtain ⟨hget, -⟩ := getCheckRights_get hd
      have hget' : v.get d.id = some d := by rw [get_id hget]; exact hget
      refine Meets.bind (Q := fun r => Effect v caller (.resize id newSize) (statusReply r.1)
        r.2.dataspaces) ?_ fun r h => by simp only [meets_pure]; exact h
      unfold Server.resizeDs
      split
      · refine (closeDs_meets d).bind fun v' h => Meets.skip fun s => ?_
        simp only [meets_pure, h]
        exact .closed d.id (by simp)
      · refine Meets.skip ?_
        rintro ⟨e, s⟩
        cases e with
        | some e => exact .same (by simp)
        | none => exact Meets.skip fun size => Meets.skip fun s => .resized d size hget' (by simp)
  | copy id srcOffs dstOffs num flags =>
    simp only [Server.copy]
    split
    · exact .same (by simp)
    · split
      · exact .same (by simp)
      · refine Meets.bind (createCopy_meets _ _ _ _ _ _ _ _ _ _) fun r h => ?_
        exact effect_open (by simp) h
  | dmphysCopy id srcOffs dstOffs num dstPool dstAddr dstSize dstAlign flags =>
    simp only [Server.dmphysCopy]
    split
    · exact .same (by simp)
    · split
      · exact .same (by simp)
      · split
        · exact .same (by simp)
        · refine Meets.bind (createCopy_meets _ _ _ _ _ _ _ _ _ _) fun r h => ?_
          exact effect_open (by simp) h
  | share id client flags =>
    simp only [Server.share]
    split
    · exact .same (by simp)
    next d hd =>
      obtain ⟨hget, -⟩ := getCheckRights_get hd
      obtain rfl := get_id hget
      refine Meets.bind (Q := fun r => Effect v caller (.share d.id client flags) (statusReply r.1)
        r.2.dataspaces) ?_ fun r h => by simp only [meets_pure]; exact h
      split
      all_goals
        refine Meets.skip fun s => Meets.skip fun s => ?_
        simp only [meets_pure]
        exact Effect.shared d client flags hd
  | revoke id client flags =>
    simp only [Server.revoke]
    split
    · exact .same (by simp [statusReply])
    next d hd =>
      obtain ⟨hget, -⟩ := getCheckRights_get hd
      obtain rfl := get_id hget
      split
      next h0 => exact .kept d client flags hget h0
      next h0 =>
        split
        · exact .removed d client flags hget
        · exact .restricted d client flags hget h0
  | transfer id newOwner =>
    simp only [Server.transfer]
    split
    · exact .same (by simp)
    next d hd =>
      have hget := getCheckOwner_get hd
      obtain rfl := get_id hget
      exact .transferred d newOwner hget
  | map id offset size rcvSize2 rcvOffs flags => exact Meets.skip fun r => .same (by simp)
  | fault id offset => exact Meets.skip fun r => .same (by simp)

end

/-! ## Histories -/

/-- The rights of the task of `t` on the dataspace `id`. -/
def rightsIn (l : List Dataspace) (id : Nat) (t : ThreadId) : Nat :=
  match l.find? (·.id == id) with
  | none => 0
  | some d => d.getRights t

/-- The task of `t` holds the right with number `bit` on the dataspace `id`. -/
def Server.Holding (v : Server) (id : Nat) (t : ThreadId) (bit : Nat) : Prop :=
  (rightsIn v.dataspaces id t).testBit bit = true

/-- The task of `t` owns the dataspace `id`. -/
def Server.Owns (v : Server) (id : Nat) (t : ThreadId) : Prop :=
  ∃ d, v.get id = some d ∧ d.isOwner t = true

/-- A request that was handled. -/
structure Event where
  before : Server
  caller : ThreadId
  req : Request
  reply : Reply
  after : Server

/-- The requests that led to a state, the last one first. -/
inductive History : List Event → Server → Prop
  | start {v : Server} (h : v.dataspaces = []) : History [] v
  | step {es : List Event} {v v' : Server} {slab : Slab} {caller : ThreadId} {req : Request}
    {reply : Reply} (h : History es v) (hv : v.handle slab caller req = .ok (reply, v')) :
    History (⟨v, caller, req, reply, v'⟩ :: es) v'

namespace Event

/-- A share request that gives the task of `t` a right which the caller may give away. -/
def Gives (e : Event) (id : Nat) (t : ThreadId) (bit : Nat) : Prop :=
  e.reply = .done ∧ (e.before.Owns id e.caller ∨ e.before.Holding id e.caller bit) ∧
    ∃ client flags, e.req = .share id client flags ∧ taskEqual t client = true ∧
      (rightsOf flags).testBit bit = true

/-- A revoke request that takes a right from the task of `t`. -/
def Revokes (e : Event) (id : Nat) (t : ThreadId) (bit : Nat) : Prop :=
  e.reply = .done ∧ ∃ client flags, e.req = .revoke id client flags ∧ taskEqual t client = true ∧
    (rightsOf flags).testBit bit = true

end Event

/-- The right was given, and since then the task has held it and it was not revoked. -/
def Given (es : List Event) (id : Nat) (t : ThreadId) (bit : Nat) : Prop :=
  ∃ later e earlier, es = later ++ e :: earlier ∧ e.Gives id t bit ∧
    ∀ f ∈ later, f.after.Holding id t bit ∧ ¬f.Revokes id t bit

/-- No dataspace has two client descriptors of one task. -/
def OneEach (l : List Dataspace) : Prop := ∀ d ∈ l, (d.clients.map (·.client.task)).Nodup

/-! ## The rights after a request -/

section
variable {d : Dataspace} {l : List Dataspace} {c t : ThreadId} {r id : Nat}

theorem find_mapRights {f : Nat → Nat} (cs : List Client) :
    (cs.map fun e => if taskEqual c e.client then { e with rights := f e.rights } else e).find?
        (fun e => taskEqual t e.client) =
      (cs.find? fun e => taskEqual t e.client).map fun e =>
        if taskEqual c e.client then { e with rights := f e.rights } else e := by
  rw [List.find?_map]
  congr 2
  funext e
  simp only [Function.comp]
  split <;> rfl

theorem taskEqual_of_find {cs : List Client} {e : Client}
    (h : cs.find? (fun e => taskEqual t e.client) = some e) : t.task = e.client.task := by
  have := List.find?_some h
  simpa [taskEqual] using this

/-- The rights of a task once a function was applied to the descriptors of another. -/
theorem getRights_mapRights (f : Nat → Nat) :
    ({ d with clients := d.mapRights c f } : Dataspace).getRights t =
      if taskEqual t c = true ∧ d.isClient t = true then f (d.getRights t) else d.getRights t := by
  unfold Dataspace.getRights Dataspace.isClient Dataspace.findClient Dataspace.mapRights
  rw [find_mapRights]
  cases hf : d.clients.find? (fun e => taskEqual t e.client) with
  | none => simp
  | some e =>
    have ht := taskEqual_of_find hf
    simp only [Option.map_some, Option.isSome_some, and_true, taskEqual, ht, beq_iff_eq]
    by_cases hc : c.task = e.client.task
    · simp [hc]
    · simp [hc, Ne.symm hc]

theorem getRights_addClient :
    (d.addClient c r).2.getRights t =
      if taskEqual t c = true then d.getRights t ||| r else d.getRights t := by
  unfold Dataspace.addClient
  by_cases hc : d.isClient c = true
  · rw [if_pos hc, getRights_mapRights]
    by_cases ht : taskEqual t c = true
    · have : d.isClient t = true := by
        have h : t.task = c.task := by simpa [taskEqual] using ht
        simpa [Dataspace.isClient, Dataspace.findClient, taskEqual, h] using hc
      simp [ht, this]
    · simp [ht]
  · rw [if_neg hc]
    simp only [Dataspace.getRights, Dataspace.findClient, List.find?_cons]
    by_cases ht : taskEqual t c = true
    · have h : t.task = c.task := by simpa [taskEqual] using ht
      have hn : d.clients.find? (fun e => taskEqual t e.client) = none := by
        simpa [Dataspace.isClient, Dataspace.findClient, taskEqual, h] using hc
      simp [ht, hn]
    · simp [ht]

theorem getRights_congr (h : taskEqual t c = true) : d.getRights t = d.getRights c := by
  have h : t.task = c.task := by simpa [taskEqual] using h
  simp only [Dataspace.getRights, Dataspace.findClient, taskEqual, h]

theorem find_eraseP {cs : List Client} (hn : (cs.map (·.client.task)).Nodup) :
    (cs.eraseP fun e => taskEqual c e.client).find? (fun e => taskEqual t e.client) =
      if taskEqual t c = true then none else cs.find? fun e => taskEqual t e.client := by
  induction cs with
  | nil => simp
  | cons e cs ih =>
    simp only [List.map_cons, List.nodup_cons] at hn
    have ih := ih hn.2
    simp only [taskEqual, beq_iff_eq] at ih ⊢
    by_cases hc : c.task = e.client.task
    · simp only [List.eraseP_cons, hc, beq_self_eq_true]
      by_cases ht : t.task = e.client.task
      · rw [if_pos ht, List.find?_eq_none]
        intro x hx hxt
        exact hn.1 (List.mem_map.2 ⟨x, hx, by rw [← ht]; exact (beq_iff_eq.1 hxt).symm⟩)
      · simp [ht]
    · simp only [List.eraseP_cons, beq_eq_false_iff_ne.2 hc, cond_false]
      by_cases ht : t.task = e.client.task
      · simp [ht, Ne.symm hc]
      · simp [ht, ih]

theorem getRights_removeClient (hn : (d.clients.map (·.client.task)).Nodup) :
    (d.removeClient c).getRights t = if taskEqual t c = true then 0 else d.getRights t := by
  unfold Dataspace.getRights Dataspace.findClient Dataspace.removeClient
  simp only [find_eraseP hn]
  by_cases ht : taskEqual t c = true <;> simp [ht]

theorem rightsIn_cons (h : d.clients = []) :
    rightsIn (d :: l) id t = if id = d.id then 0 else rightsIn l id t := by
  by_cases hi : id = d.id
  · simp [rightsIn, hi, Dataspace.getRights, Dataspace.findClient, h]
  · simp [rightsIn, hi, Ne.symm hi]

theorem find_dropFrom (n : Nat) :
    (dropFrom n l).find? (·.id == id) = if id = n then none else l.find? (·.id == id) := by
  induction l with
  | nil => simp [dropFrom]
  | cons e l ih =>
    by_cases he : e.id = n
    · have hdrop : dropFrom n (e :: l) = dropFrom n l := by simp [dropFrom, he]
      rw [hdrop, ih]
      by_cases hi : id = n
      · rw [if_pos hi, if_pos hi]
      · rw [if_neg hi, if_neg hi, List.find?_cons_of_neg (by simpa [he] using Ne.symm hi)]
    · have hdrop : dropFrom n (e :: l) = e :: dropFrom n l := by simp [dropFrom, he]
      rw [hdrop]
      by_cases hei : e.id = id
      · subst hei
        simp [he]
      · simp [hei, ih]

theorem rightsIn_dropFrom (n : Nat) :
    rightsIn (dropFrom n l) id t = if id = n then 0 else rightsIn l id t := by
  unfold rightsIn
  rw [find_dropFrom]
  by_cases hi : id = n <;> simp [hi]

theorem find_putIn_ne (hi : id ≠ d.id) :
    (putIn d l).find? (·.id == id) = l.find? (·.id == id) := by
  unfold putIn
  induction l with
  | nil => rfl
  | cons e l ih =>
    by_cases he : e.id = d.id
    · simp [he, Ne.symm hi, ih]
    · by_cases hei : e.id = id
      · subst hei
        simp [he]
      · simp [he, hei, ih]

theorem find_putIn_self (hd : (l.find? (·.id == d.id)).isSome = true) :
    (putIn d l).find? (·.id == d.id) = some d := by
  unfold putIn
  induction l with
  | nil => simp at hd
  | cons e l ih =>
    by_cases he : e.id = d.id
    · simp [he]
    · rw [List.find?_cons_of_neg (by simpa using he)] at hd
      simp [he, ih hd]

theorem rightsIn_putIn (hd : (l.find? (·.id == d.id)).isSome = true) :
    rightsIn (putIn d l) id t = if id = d.id then d.getRights t else rightsIn l id t := by
  unfold rightsIn
  by_cases hi : id = d.id
  · rw [if_pos hi, hi, find_putIn_self hd]
  · rw [if_neg hi, find_putIn_ne hi]

end

section
variable {v : Server} {caller t : ThreadId} {req : Request} {reply : Reply} {l : List Dataspace}
  {id bit : Nat}

theorem rightsIn_of_get {d : Dataspace} (h : v.get d.id = some d) :
    rightsIn v.dataspaces d.id t = d.getRights t := by
  have : v.dataspaces.find? (·.id == d.id) = some d := h
  simp [rightsIn, this]

theorem rightsIn_write {d d' : Dataspace} (hd : v.get d.id = some d) (hid : d'.id = d.id) :
    rightsIn (putIn d' v.dataspaces) id t =
      if id = d.id then d'.getRights t else rightsIn v.dataspaces id t := by
  have hf : v.dataspaces.find? (·.id == d.id) = some d := hd
  rw [rightsIn_putIn (by rw [hid, hf]; rfl), hid]

theorem testBit_of_checkRights {d : Dataspace} {rights : Nat}
    (h : d.checkRights caller rights = true) (hb : rights.testBit bit = true) :
    (d.getRights caller).testBit bit = true := by
  unfold Dataspace.checkRights at h
  unfold Dataspace.getRights
  cases hc : d.findClient caller with
  | none => simp [hc] at h
  | some c =>
    simp only [hc, beq_iff_eq] at h ⊢
    rw [← h, Nat.testBit_and, Bool.and_eq_true] at hb
    exact hb.1

theorem OneEach.putIn {d : Dataspace} (h : OneEach l)
    (hd : (d.clients.map (·.client.task)).Nodup) : OneEach (putIn d l) := by
  intro e he
  obtain ⟨x, hx, rfl⟩ := List.mem_map.1 he
  split
  · exact hd
  · exact h x hx

theorem map_task_mapRights (d : Dataspace) (c : ThreadId) (f : Nat → Nat) :
    (d.mapRights c f).map (·.client.task) = d.clients.map (·.client.task) := by
  unfold Dataspace.mapRights
  rw [List.map_map]
  congr 1
  funext e
  simp only [Function.comp]
  split <;> rfl

theorem nodup_addClient {d : Dataspace} (c : ThreadId) (r : Nat)
    (h : (d.clients.map (·.client.task)).Nodup) :
    ((d.addClient c r).2.clients.map (·.client.task)).Nodup := by
  unfold Dataspace.addClient
  split
  · simpa only [map_task_mapRights] using h
  next hc =>
    simp only [List.map_cons, List.nodup_cons]
    refine ⟨?_, h⟩
    intro hm
    obtain ⟨x, hx, hxt⟩ := List.mem_map.1 hm
    refine hc ?_
    unfold Dataspace.isClient Dataspace.findClient
    rw [List.find?_isSome]
    exact ⟨x, hx, by simp [taskEqual, hxt]⟩

theorem Effect.oneEach (h : Effect v caller req reply l) (ho : OneEach v.dataspaces) :
    OneEach l := by
  have hmem : ∀ {d : Dataspace}, v.get d.id = some d → (d.clients.map (·.client.task)).Nodup :=
    fun hd => ho _ (List.mem_of_find?_eq_some hd)
  cases h with
  | same => exact ho
  | opened d hc =>
    intro e he
    rcases List.mem_cons.1 he with rfl | he
    · simp [hc]
    · exact ho e he
  | closed id => exact fun e he => ho e (List.mem_filter.1 he).1
  | resized d size hd =>
    have hn := hmem hd
    exact ho.putIn hn
  | shared d client flags hr =>
    exact ho.putIn (nodup_addClient client _ (hmem (getCheckRights_get hr).1))
  | kept => exact ho
  | removed d client flags hd =>
    refine ho.putIn ((hmem hd).sublist (List.Sublist.map _ ?_))
    exact List.eraseP_sublist
  | restricted d client flags hd =>
    refine ho.putIn ?_
    unfold Dataspace.setRights
    simpa only [map_task_mapRights] using hmem hd
  | transferred d newOwner hd =>
    have hn := hmem hd
    exact ho.putIn hn

/-- A right held after a request was given by it, or it was there before and not revoked. -/
theorem Effect.held (h : Effect v caller req reply l) (ho : OneEach v.dataspaces)
    (hb : (rightsIn l id t).testBit bit = true) (after : Server) :
    (Event.mk v caller req reply after).Gives id t bit ∨
      v.Holding id t bit ∧ ¬(Event.mk v caller req reply after).Revokes id t bit := by
  cases h with
  | same hn =>
    refine .inr ⟨hb, ?_⟩
    rintro ⟨hr, client, flags, hq, -⟩
    exact hn hr id client flags hq
  | opened d hc hn =>
    rw [rightsIn_cons hc] at hb
    split at hb
    · simp at hb
    · refine .inr ⟨hb, ?_⟩
      rintro ⟨-, client, flags, hq, -⟩
      exact hn id client flags hq
  | closed n hn =>
    rw [rightsIn_dropFrom] at hb
    split at hb
    · simp at hb
    · refine .inr ⟨hb, ?_⟩
      rintro ⟨-, client, flags, hq, -⟩
      exact hn id client flags hq
  | resized d size hd hn =>
    refine .inr ⟨?_, ?_⟩
    · rw [rightsIn_write hd (by rfl)] at hb
      split at hb
      next hi => rw [Server.Holding, hi, rightsIn_of_get hd]; exact hb
      · exact hb
    · rintro ⟨-, client, flags, hq, -⟩
      exact hn id client flags hq
  | shared d client flags hr =>
    obtain ⟨hd, hc⟩ := getCheckRights_get hr
    rw [rightsIn_write hd (by unfold Dataspace.addClient; split <;> rfl)] at hb
    have hkeep (h : v.Holding id t bit) : v.Holding id t bit ∧
        ¬(Event.mk v caller (.share d.id client flags) .done after).Revokes id t bit := by
      refine ⟨h, ?_⟩
      rintro ⟨-, _, _, hq, -⟩
      cases hq
    split at hb
    next hi =>
      subst hi
      rw [getRights_addClient] at hb
      split at hb
      next ht =>
        rw [Nat.testBit_or, Bool.or_eq_true] at hb
        rcases hb with hb | hb
        · exact .inr (hkeep (by rw [Server.Holding, rightsIn_of_get hd]; exact hb))
        · refine .inl ⟨rfl, ?_, client, flags, rfl, ht, hb⟩
          rcases hc with hc | hc
          · refine .inr ?_
            rw [Server.Holding, rightsIn_of_get hd]
            exact testBit_of_checkRights hc hb
          · exact .inl ⟨d, hd, hc⟩
      · exact .inr (hkeep (by rw [Server.Holding, rightsIn_of_get hd]; exact hb))
    · exact .inr (hkeep hb)
  | kept d client flags hd h0 =>
    refine .inr ⟨hb, ?_⟩
    rintro ⟨-, client', flags', hq, ht, -⟩
    cases hq
    rw [rightsIn_of_get hd, getRights_congr ht, h0] at hb
    simp at hb
  | removed d client flags hd =>
    rw [rightsIn_write hd (by rfl), getRights_removeClient (ho d (List.mem_of_find?_eq_some hd))] at hb
    split at hb
    next hi =>
      split at hb
      · simp at hb
      next ht =>
        refine .inr ⟨by rw [Server.Holding, hi, rightsIn_of_get hd]; exact hb, ?_⟩
        rintro ⟨-, client', flags', hq, ht', -⟩
        cases hq
        exact ht ht'
    next hi =>
      refine .inr ⟨hb, ?_⟩
      rintro ⟨-, client', flags', hq, -⟩
      cases hq
      exact hi rfl
  | restricted d client flags hd h0 =>
    rw [rightsIn_write hd (by rfl)] at hb
    split at hb
    next hi =>
      subst hi
      rw [Dataspace.setRights, getRights_mapRights] at hb
      split at hb
      next ht =>
        rw [← getRights_congr ht.1, Nat.testBit_xor, Nat.testBit_and] at hb
        refine .inr ⟨?_, ?_⟩
        · rw [Server.Holding, rightsIn_of_get hd]
          cases hg : (d.getRights t).testBit bit
          · simp [hg] at hb
          · rfl
        · rintro ⟨-, client', flags', hq, -, hf⟩
          cases hq
          simp [hf] at hb
      next ht =>
        refine .inr ⟨by rw [Server.Holding, rightsIn_of_get hd]; exact hb, ?_⟩
        rintro ⟨-, client', flags', hq, ht', -⟩
        cases hq
        refine ht ⟨ht', ?_⟩
        cases hf : d.findClient t with
        | none => simp [Dataspace.getRights, hf] at hb
        | some c => simp [Dataspace.isClient, hf]
    next hi =>
      refine .inr ⟨hb, ?_⟩
      rintro ⟨-, client', flags', hq, -⟩
      cases hq
      exact hi rfl
  | transferred d newOwner hd =>
    refine .inr ⟨?_, ?_⟩
    · rw [rightsIn_write hd (by rfl)] at hb
      split at hb
      next hi => rw [Server.Holding, hi, rightsIn_of_get hd]; exact hb
      · exact hb
    · rintro ⟨-, client, flags, hq, -⟩
      cases hq

end

/-! ## The pages of map and fault requests -/

section
variable {v : Server} {caller : ThreadId} {s : State} {m : MemMap}

theorem buildMapFpage_writable (areaStart areaSize offset : Nat) (size2 : Int)
    (rcvSize2 rcvOffs flags : Nat) :
    Meets (buildMapFpage m areaStart areaSize offset size2 rcvSize2 rcvOffs flags)
      (fun r => ∀ p, r = .ok p → p.fpage.writable = writeFlag flags) (fun _ => True) := by
  refine Meets.skip fun size => ?_
  split
  · simp
  · refine Meets.skip fun ok => ?_
    split
    · simp
    · split
      · trivial
      · rintro p ⟨⟩
        rfl

theorem mapPages_writable (pages : Ptr) (offset size rcvSize2 rcvOffs flags : Nat) :
    Meets (mapPages s m pages offset size rcvSize2 rcvOffs flags)
      (fun r => ∀ p, r = .ok (some p) → p.fpage.writable = writeFlag flags) (fun _ => True) := by
  unfold mapPages
  simp only
  split
  · simp
  · split
    · simp
    · refine Meets.skip fun r => ?_
      split
      · simp
      · split
        · simp
        · split
          · simp
          · refine (buildMapFpage_writable _ _ _ _ _ _ _).bind fun r h p hp => ?_
            cases r with
            | error e => cases hp
            | ok q =>
              cases hp
              exact h p rfl

end

namespace Event

/-- A flexpage only for the owner or a reader, a writable one only for the owner or a reader that may
also write. -/
def Confined (e : Event) (p : SndFpage) : Prop :=
  match e.req with
  | .map id _ _ _ _ _ | .fault id _ =>
    (e.before.Owns id e.caller ∨ e.before.Holding id e.caller 0) ∧
      (p.fpage.writable = true → e.before.Owns id e.caller ∨
        e.before.Holding id e.caller 0 ∧ e.before.Holding id e.caller 1)
  | _ => False

/-- The request is not a map request that leaves `L4DM_READ` out of its flags and comes from a task
which is not the owner and has no such right. -/
def AsksRead (e : Event) : Prop :=
  match e.req with
  | .map id _ _ _ _ flags => flags.testBit 0 = true ∨ e.before.Owns id e.caller ∨
      e.before.Holding id e.caller 0
  | _ => True

end Event

section
variable {v v' : Server} {caller : ThreadId} {req : Request} {es : List Event} {slab : Slab}

theorem owns_or_holding {id rights : Nat} {d : Dataspace}
    (h : v.getCheckRights id caller rights = .ok d) (bit : Nat) (hb : rights.testBit bit = true) :
    v.Owns id caller ∨ v.Holding id caller bit := by
  obtain ⟨hd, hc | hc⟩ := getCheckRights_get h
  · obtain rfl := get_id hd
    refine .inr ?_
    rw [Server.Holding, rightsIn_of_get hd]
    exact testBit_of_checkRights hc hb
  · exact .inl ⟨d, hd, hc⟩

theorem map_confined (id offset size rcvSize2 rcvOffs flags : Nat) (after : Server) :
    Meets (v.map caller id offset size rcvSize2 rcvOffs flags)
      (fun r => ∀ p, r = .page (some p) →
        let e : Event := ⟨v, caller, .map id offset size rcvSize2 rcvOffs flags, r, after⟩
        (e.Confined p ↔ e.AsksRead)) (fun _ => True) := by
  unfold Server.map
  split
  · simp
  next d hd =>
    refine (mapPages_writable _ _ _ _ _ _).bind fun r h => ?_
    cases r with
    | error e => simp
    | ok q =>
      rintro p ⟨⟩
      refine ⟨fun hc => .inr hc.1, ?_⟩
      intro ha
      have hread : v.Owns id caller ∨ v.Holding id caller 0 := by
        rcases ha with ha | ha
        · exact owns_or_holding hd 0 (by simpa [rightsOf, Nat.testBit_and] using ha)
        · exact ha
      refine ⟨hread, fun hw => ?_⟩
      rw [h p rfl] at hw
      have hwrite := owns_or_holding hd 1
        (by rw [rightsOf, Nat.testBit_and, show flags.testBit 1 = true from hw]; rfl)
      tauto

theorem fault_confined (id offset : Nat) (after : Server) :
    Meets (v.fault caller id offset)
      (fun r => ∀ p, r = .page (some p) →
        (Event.mk v caller (.fault id offset) r after).Confined p) (fun _ => True) := by
  unfold Server.fault
  simp only
  split
  · simp
  next d hd =>
    refine Meets.bind (Q := fun r => ∀ p, r = .ok p → p.fpage.writable = offset.testBit 1) ?_
      fun r h => ?_
    · refine Meets.skip fun r => ?_
      cases r with
      | none => simp
      | some r => rintro p ⟨⟩; rfl
    · cases r with
      | error e => simp
      | ok q =>
        rintro p hp
        cases hp
        have hread := owns_or_holding hd 0 (by split <;> rfl)
        refine ⟨hread, fun hw => ?_⟩
        rw [h _ rfl] at hw
        have hwrite := owns_or_holding hd 1 (by rw [if_pos hw]; rfl)
        tauto

/-- Only map and fault requests are answered with flexpages. -/
theorem handle_confined (req : Request) (after : Server) :
    Meets (v.handle slab caller req)
      (fun r => ∀ p, r.1 = .page (some p) →
        ((Event.mk v caller req r.1 after).Confined p ↔ (Event.mk v caller req r.1 after).AsksRead))
      (fun _ => True) := by
  have hopen (r : Except Err Nat) (p : SndFpage) : openReply r ≠ .page (some p) := by
    cases r <;> simp [openReply]
  have hstatus (r : Option Err) (p : SndFpage) : statusReply r ≠ .page (some p) := by
    cases r <;> simp [statusReply]
  unfold Server.handle
  cases req with
  | memOpen | dmphysOpen | copy | dmphysCopy =>
    exact Meets.skip fun r p hp => absurd hp (hopen _ p)
  | close | resize | share => exact Meets.skip fun r p hp => absurd hp (hstatus _ p)
  | revoke | transfer => exact fun p hp => absurd hp (hstatus _ p)
  | map id offset size rcvSize2 rcvOffs flags =>
    exact (map_confined id offset size rcvSize2 rcvOffs flags after).bind fun r h => h
  | fault id offset =>
    refine (fault_confined id offset after).bind fun r h p hp => ?_
    exact ⟨fun _ => trivial, fun _ => h p hp⟩

theorem History.oneEach (h : History es v) : OneEach v.dataspaces := by
  induction h with
  | start h => simp [OneEach, h]
  | step h hv ih => exact ((handle_effect _ _).post hv).oneEach ih

theorem History.given (h : History es v) {id : Nat} {t : ThreadId} {bit : Nat}
    (hb : v.Holding id t bit) : Given es id t bit := by
  induction h with
  | start h => simp [Server.Holding, rightsIn, h] at hb
  | @step es v v' slab caller req reply h hv ih =>
    rcases ((handle_effect _ _).post hv).held h.oneEach hb v' with hg | ⟨hold, hr⟩
    · exact ⟨[], _, es, rfl, hg, by simp⟩
    · obtain ⟨later, e, earlier, rfl, hg, hl⟩ := ih hold
      refine ⟨_ :: later, e, earlier, rfl, hg, ?_⟩
      intro f hf
      rcases List.mem_cons.1 hf with rfl | hf
      · exact ⟨hb, hr⟩
      · exact hl f hf

theorem History.confined (h : History es v) :
    ∀ e ∈ es, ∀ p, e.reply = .page (some p) → (e.Confined p ↔ e.AsksRead) := by
  induction h with
  | start => simp
  | @step es v v' slab caller req reply h hv ih =>
    intro e he p hp
    rcases List.mem_cons.1 he with rfl | he
    · exact (handle_confined req v').post hv p hp
    · exact ih e he p hp

/-- Who holds a right was given it by someone who had it. The pages of a map request are confined if
and only if the request asks for reading or the caller may read anyway. -/
theorem rights_confined (h : History es v) :
    (∀ id t bit, v.Holding id t bit → Given es id t bit) ∧
      ∀ e ∈ es, ∀ p, e.reply = .page (some p) → (e.Confined p ↔ e.AsksRead) :=
  ⟨fun _ _ _ hb => h.given hb, h.confined⟩

/-- The server after a request that does not panic, and its answer. -/
def Server.next (v : Server) (slab : Slab) (caller : ThreadId) (req : Request) : Reply × Server :=
  match v.handle slab caller req with
  | .ok r => r
  | .error _ => (.error .einval, v)

theorem History.next (h : History es v) (slab : Slab) (caller : ThreadId) (req : Request)
    (hok : (v.handle slab caller req).toBool = true) :
    History (⟨v, caller, req, (v.next slab caller req).1, (v.next slab caller req).2⟩ :: es)
      (v.next slab caller req).2 := by
  cases hr : v.handle slab caller req with
  | ok r =>
    simp only [Server.next, hr]
    exact .step h hr
  | error e => simp [hr, Except.toBool] at hok

/-- Four pages and no dataspace. -/
def fourPages : Server where
  st := ((Config.mk (.init (fun _ => none) (fun _ => 0) .plain) [] []).next .plain
    (.addFreeArea 0 0x1000 0x4000)).st
  memMap := emptyMap
  dataspaces := []
  lastId := 0

/-- A task opens a dataspace and shares it for writing only. -/
def writeOnly : Server :=
  ((fourPages.next .plain ⟨1, 0⟩ (.memOpen 0x1000 0 0)).2.next .plain ⟨1, 0⟩
    (.share 1 ⟨2, 0⟩ 2)).2

theorem writeOnly_history : ∃ es, History es writeOnly :=
  ⟨_, ((History.start rfl : History [] fourPages).next .plain ⟨1, 0⟩ (.memOpen 0x1000 0 0)
    (by decide +kernel)).next .plain ⟨1, 0⟩ (.share 1 ⟨2, 0⟩ 2) (by decide +kernel)⟩

theorem rights_confined_writeOnly :
    (∃ es, Given es 1 ⟨2, 0⟩ 1) ∧
      (Event.mk writeOnly ⟨1, 0⟩ (.map 1 0 0x1000 12 0 3)
        (writeOnly.next .plain ⟨1, 0⟩ (.map 1 0 0x1000 12 0 3)).1
        (writeOnly.next .plain ⟨1, 0⟩ (.map 1 0 0x1000 12 0 3)).2).Confined
          ⟨0, ⟨0x1000, 12, true⟩⟩ := by
  obtain ⟨es, h⟩ := writeOnly_history
  have hright : (rightsIn writeOnly.dataspaces 1 ⟨2, 0⟩).testBit 1 = true := by decide +kernel
  have hmap := h.next .plain ⟨1, 0⟩ (.map 1 0 0x1000 12 0 3) (by decide +kernel)
  refine ⟨⟨es, (rights_confined h).1 1 ⟨2, 0⟩ 1 hright⟩, ?_⟩
  exact ((rights_confined hmap).2 _ List.mem_cons_self _ (by decide +kernel)).2 (.inl rfl)

/-- A client without `L4DM_READ` gets a writable page when the flags do not name that right. -/
theorem map_without_read : ¬∀ es v, History es v →
    ∀ e ∈ es, ∀ p, e.reply = .page (some p) → e.Confined p := by
  intro h
  obtain ⟨es, hes⟩ := writeOnly_history
  have hmap := hes.next .plain ⟨2, 0⟩ (.map 1 0 0x1000 12 0 2) (by decide +kernel)
  have hreply : (writeOnly.next .plain ⟨2, 0⟩ (.map 1 0 0x1000 12 0 2)).1 =
      .page (some ⟨0, ⟨0x1000, 12, true⟩⟩) := by
    decide +kernel
  have hc := h _ _ hmap _ List.mem_cons_self _ hreply
  rcases hc.1 with ⟨d, hd, ho⟩ | hb
  · have hget : (writeOnly.get 1).map (·.isOwner ⟨2, 0⟩) = some false := by decide +kernel
    have hd : writeOnly.get 1 = some d := hd
    rw [hd] at hget
    simp [show d.isOwner ⟨2, 0⟩ = true from ho] at hget
  · have hrights : (rightsIn writeOnly.dataspaces 1 ⟨2, 0⟩).testBit 0 = false := by decide +kernel
    exact absurd hb (by rw [Server.Holding]; simp [hrights])

end

end L4env.DMphys
