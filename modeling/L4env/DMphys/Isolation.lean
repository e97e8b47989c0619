import L4env.DMphys.Contents
import L4env.DMphys.Rights

/-!
# Isolation of dataspaces

The pages of a dataspace belong to no other dataspace, to no free area and not to the descriptor
memory. Runs of requests keep this, and no request panics, as long as the descriptor memory has the
pages it needs and no size or address overflows (`Server.Safe`).
-/

namespace L4env.DMphys

/-- The page with this number has bytes of the area `a`. -/
def State.OnPage (s : State) (a : Ptr) (page : Nat) : Prop :=
  s.addr a / pageSize ≤ page ∧ page * pageSize < s.addr a + s.size a

/-- The area `a` is in the list of the dataspace. -/
def State.AreaOf (s : State) (d : Dataspace) (a : Ptr) : Prop :=
  ∃ l, IsSList s.dsNext (some d.pages) l ∧ a ∈ l

/-- The area `a` is a free area of the pool. -/
def State.FreeIn (s : State) (P : Nat) (a : Ptr) : Prop :=
  (∃ L, IsDList s.areaNext s.areaPrev (s.pools P).areaList L ∧ a ∈ L) ∧ s.used a = false

/-- No page has bytes of both areas. -/
def State.Apart (s : State) (a b : Ptr) : Prop := ∀ page, s.OnPage a page → ¬s.OnPage b page

structure Server.Isolated (v : Server) : Prop where
  /-- The lists of the dataspaces and of the pools are lists. -/
  lists : ∀ d ∈ v.dataspaces, ∃ l, IsSList v.st.dsNext (some d.pages) l
  pools : ∀ P, ∃ L, IsDList v.st.areaNext v.st.areaPrev (v.st.pools P).areaList L
  nonempty : ∀ d ∈ v.dataspaces, ∀ a, v.st.AreaOf d a → 0 < v.st.size a
  dataspaces : v.dataspaces.Pairwise fun d e =>
    ∀ a b, v.st.AreaOf d a → v.st.AreaOf e b → v.st.Apart a b
  free : ∀ d ∈ v.dataspaces, ∀ a, v.st.AreaOf d a → ∀ P b, v.st.FreeIn P b → v.st.Apart a b
  internal : ∀ d ∈ v.dataspaces, ∀ a, v.st.AreaOf d a → ∀ b ∈ v.st.internalAreas, v.st.Apart a b
  initial : ∀ d ∈ v.dataspaces, ∀ a, v.st.AreaOf d a →
    ∀ page ∈ v.st.initialPages, ¬v.st.OnPage a (page / pageSize)

/-- The arguments of a request are words. -/
def Request.Words : Request → Prop
  | .memOpen size align _ => size < 4294967296 ∧ align < 4294967296
  | .dmphysOpen _ addr size align _ => addr < 4294967296 ∧ size < 4294967296 ∧ align < 4294967296
  | .resize _ newSize => newSize < 4294967296
  | .copy _ srcOffs dstOffs num _ => srcOffs < 4294967296 ∧ dstOffs < 4294967296 ∧ num < 4294967296
  | .dmphysCopy _ srcOffs dstOffs num _ dstAddr dstSize dstAlign _ =>
    srcOffs < 4294967296 ∧ dstOffs < 4294967296 ∧ num < 4294967296 ∧ dstAddr < 4294967296 ∧
      dstSize < 4294967296 ∧ dstAlign < 4294967296
  | _ => True

/-- The request does not ask for a mapping. -/
def Request.Manages : Request → Prop
  | .map .. | .fault .. => False
  | _ => True

/-- `__create_ds` gets whole pages. -/
def State.OpenSafe (s : State) (pool addr size flags : Nat) : Prop :=
  s.AllocSafe pool addr (Word.roundUp size pageSize) flags

/-- `__create_copy` gets whole pages, and the copied part is inside the destination. -/
def State.CopySafe (s : State) (pool dstAddr dstSize dstOffs num flags : Nat) : Prop :=
  s.OpenSafe pool dstAddr dstSize flags ∧
    (s.available pool (Word.roundUp dstSize pageSize) .user = true → dstOffs + num ≤ dstSize)

/-- The requests that do not run into an overflow. -/
def Server.Safe (v : Server) (slab : Slab) (caller : ThreadId) (req : Request) : Prop :=
  { v.st with slab := slab }.Ready ∧
  match req with
  | .memOpen size _ flags => v.st.OpenSafe defaultPool anyAddr size flags
  | .dmphysOpen pool addr size _ flags => pool < numPools → v.st.OpenSafe pool addr size flags
  | .copy id srcOffs dstOffs num flags => ∀ d, v.getCheckClient id caller = .ok d → srcOffs < d.size →
      v.st.CopySafe (if samePool flags then d.pool else defaultPool) anyAddr
        (Word.roundUp (Word.add (if num = wholeDs then numCopy d.size srcOffs num else num) dstOffs)
          pageSize) dstOffs (numCopy d.size srcOffs num) flags
  | .dmphysCopy id srcOffs dstOffs num dstPool dstAddr dstSize _ flags =>
      ∀ d, v.getCheckClient id caller = .ok d → srcOffs < d.size →
        v.st.CopySafe (if samePool flags then d.pool else dstPool) dstAddr
          (max dstSize (Word.add dstOffs (numCopy d.size srcOffs num))) dstOffs
          (numCopy d.size srcOffs num) flags
  | _ => True

/-! ## The invariant of a run -/

/-- The dataspaces own lists of areas in the memory `mem` of the pools, and the descriptor memory has
the pages `first` from sigma0. -/
structure Server.Sound (v : Server) (mem : List Range) (first : List Nat) (A : Nat → Set Ptr)
    (f : Nat → List Ptr) : Prop where
  ids : (v.dataspaces.map (·.id)).Nodup
  owned : Owned v.st A v.dataspaces f
  cover : ∀ P x, Covered v.st A P x ↔ ∃ m ∈ mem, m.pool = P ∧ m.addr ≤ x ∧ x < m.addr + m.size
  initial : v.st.initialPages = first

section
variable {v v' : Server} {mem : List Range} {first : List Nat} {A A' : Nat → Set Ptr}
  {f f' : Nat → List Ptr} {d d' : Dataspace} {l : List Dataspace} {s : State} {id : Nat}

theorem perm_dropFrom (hn : (l.map (·.id)).Nodup) (hd : d ∈ l) : l.Perm (d :: dropFrom d.id l) := by
  induction l with
  | nil => cases hd
  | cons e l ih =>
    simp only [List.map_cons, List.nodup_cons, List.mem_map, not_exists, not_and] at hn
    rcases List.mem_cons.mp hd with rfl | hd
    · have : dropFrom d.id (d :: l) = l := by
        simp only [dropFrom, List.filter_cons, ne_eq, not_true_eq_false, decide_false,
          Bool.false_eq_true, if_false]
        exact List.filter_eq_self.mpr fun x hx => by simpa using hn.1 x hx
      rw [this]
    · have hne : e.id ≠ d.id := fun h => hn.1 d hd h.symm
      have : dropFrom d.id (e :: l) = e :: dropFrom d.id l := by simp [dropFrom, hne]
      rw [this]
      exact ((ih hn.2 hd).cons e).trans (.swap d e _)

theorem dropFrom_ne : ∀ e ∈ dropFrom id l, e.id ≠ id := fun e he => by
  simpa using (List.mem_filter.mp he).2

theorem perm_putIn (hn : (l.map (·.id)).Nodup) (hd : d ∈ l) (hid : d'.id = d.id) :
    (putIn d' l).Perm (d' :: dropFrom d.id l) := by
  refine ((perm_dropFrom hn hd).map _).trans (.of_eq ?_)
  rw [List.map_cons, if_pos hid.symm, hid]
  congr 1
  exact (List.map_congr_left fun e he => if_neg (dropFrom_ne e he)).trans (List.map_id _)

theorem map_id_putIn (d' : Dataspace) (l : List Dataspace) :
    (putIn d' l).map (·.id) = l.map (·.id) := by
  unfold putIn
  rw [List.map_map]
  refine List.map_congr_left fun e _ => ?_
  simp only [Function.comp]
  split
  next h => exact h.symm
  · rfl

theorem Server.Sound.next (h : v.Sound mem first A f) (hids : (v'.dataspaces.map (·.id)).Nodup)
    (ho : Owned v'.st A' v'.dataspaces f') (hk : Kept v.st A v'.st A') :
    v'.Sound mem first A' f' :=
  ⟨hids, ho, fun P x => (hk.cover P x).trans (h.cover P x), hk.steady.initial.trans h.initial⟩

theorem Server.Sound.congr_slab (h : v.Sound mem first A f) (slab : Slab) :
    ({ v with st := { v.st with slab := slab } } : Server).Sound mem first A f :=
  ⟨h.ids, h.owned.congr_slab slab, h.cover, h.initial⟩

/-- The dataspace that a request works on, in front of the others. -/
theorem Server.Sound.find (h : v.Sound mem first A f) (hd : v.get id = some d) :
    Owned v.st A (d :: dropFrom d.id v.dataspaces) f :=
  h.owned.perm (perm_dropFrom h.ids (List.mem_of_find?_eq_some hd))

theorem nodup_dropFrom (hn : (l.map (·.id)).Nodup) (id : Nat) : ((dropFrom id l).map (·.id)).Nodup :=
  hn.sublist (List.filter_sublist.map _)

/-- A request that changed the descriptor of one dataspace. -/
theorem Server.Sound.put (h : v.Sound mem first A f) (hd : v.get id = some d) (hid : d'.id = d.id)
    (ho : Owned s A' (d' :: dropFrom d.id v.dataspaces) f') (hk : Kept v.st A s A') :
    ({ v with st := s }.put d').Sound mem first A' f' := by
  have hmem := List.mem_of_find?_eq_some hd
  refine h.next ?_ (ho.perm (perm_putIn h.ids hmem hid).symm) hk
  change ((putIn d' v.dataspaces).map (·.id)).Nodup
  rw [map_id_putIn]
  exact h.ids

/-- A request that changed the clients or the owner of a dataspace. -/
theorem Server.Sound.putSame (h : v.Sound mem first A f) (hd : v.get id = some d)
    (hsame : d' = { d with owner := d'.owner, clients := d'.clients })
    (ho : Owned s A' v.dataspaces f) (hk : Kept v.st A s A') :
    ({ v with st := s }.put d').Sound mem first A' f := by
  have hmem := List.mem_of_find?_eq_some hd
  refine h.put hd (by rw [hsame]) ?_ hk
  have ho := ho.perm (perm_dropFrom h.ids hmem)
  refine ho.congr ?_ (fun e he => ?_) fun e he => ?_
  · rw [List.map_cons, List.map_cons, hsame]
    rfl
  · rcases List.mem_cons.mp he with rfl | he
    · rw [hsame]; exact ho.size d (by simp)
    · exact ho.size e (by simp [he])
  · rcases List.mem_cons.mp he with rfl | he
    · rw [hsame]; exact ho.single d (by simp)
    · exact ho.single e (by simp [he])

theorem findId_fresh {i : Nat} (h : v.findId = some i) : ∀ e ∈ v.dataspaces, e.id ≠ i := by
  have := List.find?_some h
  intro e he hi
  have hn : v.get i = none := by simpa using this
  simpa [hi] using List.find?_eq_none.mp hn e he

/-! ## Open and close -/

/-- What `__create_ds` leaves: nothing new, or a dataspace of the size that is granted. -/
def Created (v : Server) (mem : List Range) (first : List Nat) (A : Nat → Set Ptr)
    (pool addr size flags : Nat) (r : Except Err Nat × Server) : Prop :=
  ∃ A' f', r.2.Sound mem first A' f' ∧ Kept v.st A r.2.st A' ∧
    ∀ id, r.1 = .ok id → ∃ d, d.id = id ∧ r.2.dataspaces = d :: v.dataspaces ∧ size ≤ d.size ∧
      d.size = grantedAt addr flags (Word.roundUp size pageSize) ∧
      v.st.available pool (Word.roundUp size pageSize) .user = true

/-- The same with the memory: the other dataspaces keep their areas, and the new one is cleared. -/
def Machine.Created (w : Machine) (mem : List Range) (first : List Nat) (A : Nat → Set Ptr)
    (f : Nat → List Ptr) (pool addr size flags : Nat) (r : Except Err Nat × Machine) : Prop :=
  ∃ A' f', r.2.server.Sound mem first A' f' ∧
    KeptAreas w.server.dataspaces f w.server.st A r.2.server.st A' ∧
    (∀ d ∈ w.server.dataspaces, f' d.id = f d.id) ∧
    ∀ id, r.1 = .ok id → ∃ d, d.id = id ∧ r.2.server.dataspaces = d :: w.server.dataspaces ∧
      size ≤ d.size ∧ d.size = grantedAt addr flags (Word.roundUp size pageSize) ∧
      w.server.st.available pool (Word.roundUp size pageSize) .user = true ∧
      Writes (locate (r.2.server.st.pieces (f' id))) 0 d.size (fun _ => 0) w.mem r.2.mem

theorem allocate_available {pool addr n align flags : Nat} {p : Ptr} {s' : State}
    (h : Server.allocate s pool addr n align flags = .ok (some p, s')) :
    s.available pool n .user = true := by
  cases hav : s.available pool n .user with
  | true => rfl
  | false =>
    unfold Server.allocate State.dmphysPagesAllocate State.dmphysPagesAllocateArea at h
    rw [hav] at h
    split at h <;> cases h

theorem Server.Sound.machineCreateDs {w : Machine} (h : w.server.Sound mem first A f)
    (hr : w.server.st.Ready) (owner : ThreadId) {pool addr size align flags : Nat}
    (hsize : size < 4294967296) (hal : align < 4294967296)
    (hsafe : w.server.st.OpenSafe pool addr size flags) :
    Meets (w.createDs owner pool addr size align flags)
      (w.Created mem first A f pool addr size flags) fun _ => False := by
  obtain ⟨hmod, hlt, hle⟩ := roundUp_page hsize
  unfold Machine.createDs
  refine (h.owned.slabGrow hr).bind ?_
  rintro s₁ ⟨h₁, k₁, mp₁, nf₁, fa₁, sp₁, sl₁, e₁⟩
  refine (h₁.slabGrow (k₁.ready hr)).bind ?_
  rintro s₂ ⟨h₂, k₂, mp₂, nf₂, fa₂, sp₂, sl₂, e₂⟩
  have k₂ := k₁.trans k₂
  have hr₂ := k₂.ready hr
  cases hid : w.server.findId with
  | none =>
    obtain ⟨h₃, k₃⟩ := h₂.slabBack hr₂
    exact ⟨A, f, h.next h.ids h₃ (k₂.trans k₃).kept, k₂.trans k₃, fun _ _ => rfl, by simp⟩
  | some id =>
    have hfresh := findId_fresh hid
    have hsafe₂ : s₂.AllocSafe pool addr (Word.roundUp size pageSize) flags := by
      rw [e₂, e₁]; exact hsafe
    have hav : ∀ P n, s₂.available P n .user = w.server.st.available P n .user := by
      intro P n
      rw [e₂, e₁]
      rfl
    have hal := h₂.holds.inv.allocate hr₂ hal hmod hlt hsafe₂
    simp only
    cases heq : Server.allocate s₂ pool addr (Word.roundUp size pageSize) (Server.roundAlign align)
        flags with
    | error e => exact (hal.fail heq).elim
    | ok r =>
      obtain ⟨hok, hpos⟩ := hal.post heq
      obtain ⟨o, s₃⟩ := r
      simp only [ok_bind]
      cases o with
      | none =>
        obtain ⟨A₃, hL, -⟩ := hok
        have k₃ : KeptAreas w.server.dataspaces f w.server.st A s₃ A₃ := k₂.trans hL.frame
        obtain ⟨h₄, k₄⟩ := (h₂.leaves hL).slabBacks (k₃.ready hr) 2
        have k₄ := k₃.trans k₄
        exact ⟨A₃, f, h.next h.ids h₄ k₄.kept, k₄, fun _ _ => rfl, by simp⟩
      | some p =>
        obtain ⟨c, A₃, hE, hc⟩ := hok
        have k₃ : KeptAreas w.server.dataspaces f w.server.st A s₃ A₃ := k₂.trans hE.frame
        have h₃ : Owned s₃ A₃ (⟨id, owner, [], pool, p, s₃.total c, flags⟩ :: w.server.dataspaces)
            (Function.update f id c) := by
          exact h₂.cons (d := ⟨id, owner, [], pool, p, s₃.total c, flags⟩) hfresh hE rfl hc
        have hx : (⟨pool, p, c⟩ : Held) ∈ (⟨id, owner, [], pool, p, s₃.total c, flags⟩ ::
            w.server.dataspaces).map (·.held (Function.update f id c)) := by
          simp [Dataspace.held]
        obtain ⟨m, hm, hw⟩ := (h₃.holds.pageList hx).pagesClear (m := w.mem)
        refine Meets.bind_ok hm (Meets.bind_ok (h₃.holds.pagesGetSize hx) ?_)
        refine (h₃.update (k₃.ready hr)).bind ?_
        rintro s₄ ⟨A₄, h₄, k₄⟩
        have hf : ∀ d ∈ w.server.dataspaces, Function.update f id c d.id = f d.id := fun d hd =>
          Function.update_of_ne (hfresh d hd) _ _
        have k₃₄ : KeptAreas w.server.dataspaces f s₃ A₃ s₄ A₄ := by
          refine Frame.mono k₄ fun a ha => ?_
          obtain ⟨d, hd, ha⟩ := mem_heldAreas_iff.mp ha
          exact mem_heldAreas (List.mem_cons_of_mem _ hd) (by rwa [hf d hd])
        refine ⟨A₄, _, h.next ?_ h₄ (k₃.trans k₃₄).kept, k₃.trans k₃₄, hf, ?_⟩
        · simp only [List.map_cons, List.nodup_cons, List.mem_map, not_exists, not_and]
          exact ⟨fun e he => hfresh e he, h.ids⟩
        · rintro i hi
          cases hi
          have htot : s₃.total c = grantedAt addr flags (Word.roundUp size pageSize) := by
            simpa [State.total] using hE.total
          refine ⟨_, rfl, rfl, ?_, htot, ?_, ?_⟩
          · refine (hle (hpos (by simp)).ne').trans ((le_grantedAt hlt fun h0 => ?_).trans htot.ge)
            rw [h0] at hE
            have := hE.chain.links
            rw [hE.nil_iff.mpr rfl] at this
            cases this
          · rw [← hav]
            exact allocate_available heq
          · rw [Function.update_self, Frame.pieces k₄ fun a ha => areas_mem_heldAreas hx ha]
            exact hw

theorem Server.Sound.createDs (h : v.Sound mem first A f) (hr : v.st.Ready) (owner : ThreadId)
    {pool addr size align flags : Nat} (hsize : size < 4294967296) (hal : align < 4294967296)
    (hsafe : v.st.OpenSafe pool addr size flags) :
    Meets (v.createDs owner pool addr size align flags)
      (Created v mem first A pool addr size flags) fun _ => False := by
  rw [← Machine.createDs_server ⟨v, fun _ => 0⟩, meets_map]
  refine (h.machineCreateDs (w := ⟨v, fun _ => 0⟩) hr owner hsize hal hsafe).imp ?_
  rintro r ⟨A', f', h', k', -, hnew⟩
  refine ⟨A', f', h', k'.kept, fun id hid => ?_⟩
  obtain ⟨d, hd, hl, hle, hsz, hav, -⟩ := hnew id hid
  exact ⟨d, hd, hl, hle, hsz, hav⟩

/-- `__close`, with what the other dataspaces keep. -/
theorem Server.Sound.closeDs_frame (h : v.Sound mem first A f) (hr : v.st.Ready)
    (hd : v.get d.id = some d) :
    ∃ v₁ A₁, v.closeDs d = .ok v₁ ∧ v₁.Sound mem first A₁ f ∧
      v₁.dataspaces = dropFrom d.id v.dataspaces ∧
      Frame v.st A v₁.st A₁ (· ∈ heldAreas ((dropFrom d.id v.dataspaces).map (·.held f))) := by
  obtain ⟨s₁, A₁, heq, h₁, k₁⟩ := (h.find hd).release hr
  obtain ⟨h₂, k₂⟩ := h₁.slabBacks (k₁.ready hr) (d.clients.length + 2)
  have k₂ := Frame.trans k₁ k₂
  have hupd := h₂.update (k₂.kept.ready hr)
  unfold Server.closeDs
  rw [heq, ok_bind]
  simp only [Server.dsRelease]
  cases hs₃ : (s₁.slabBacks (d.clients.length + 2)).dmphysInternalAllocUpdate with
  | error e => exact (hupd.fail hs₃).elim
  | ok s₃ =>
    obtain ⟨A₃, h₃, k₃⟩ := hupd.post hs₃
    have k₃ := k₂.trans k₃
    exact ⟨_, A₃, rfl, h.next (nodup_dropFrom h.ids d.id) h₃ k₃.kept, rfl, k₃⟩

theorem Server.Sound.closeDs (h : v.Sound mem first A f) (hr : v.st.Ready) (hd : v.get id = some d) :
    Meets (v.closeDs d) (fun v' => ∃ A' f', v'.Sound mem first A' f' ∧ Kept v.st A v'.st A')
      fun _ => False := by
  obtain ⟨v₁, A₁, heq, h₁, -, hF⟩ := h.closeDs_frame hr ((get_id hd).symm ▸ hd)
  exact .of_eq_ok heq ⟨A₁, f, h₁, hF.kept⟩

/-! ## Resize and copy -/

theorem Server.Sound.resizeDs (h : v.Sound mem first A f) (hr : v.st.Ready) (hd : v.get id = some d)
    {n : Nat} (hn : n % pageSize = 0) (hlt : n < 4294967296) :
    Meets (v.resizeDs d n) (fun r => ∃ A' f', r.2.Sound mem first A' f') fun _ => False := by
  unfold Server.resizeDs
  split
  · refine (h.closeDs hr hd).bind ?_
    rintro v₁ ⟨A₁, f₁, h₁, k₁⟩
    refine (h₁.owned.update (k₁.ready hr)).bind ?_
    rintro s₂ ⟨A₂, h₂, k₂⟩
    exact ⟨A₂, f₁, h₁.next h₁.ids h₂ k₂.kept⟩
  next h0 =>
    refine ((h.find hd).resizePages hr dropFrom_ne hn (by omega) hlt).bind ?_
    rintro ⟨o, s₁⟩ ⟨A₁, k₁, hres⟩
    cases o with
    | some e =>
      rcases hres with ⟨-, h₁⟩ | ⟨h0, -⟩
      · have hperm := perm_dropFrom h.ids (List.mem_of_find?_eq_some hd)
        exact ⟨A₁, f, h.next h.ids (h₁.perm hperm.symm) k₁⟩
      · cases h0
    | none =>
      rcases hres with ⟨hne, -⟩ | ⟨-, c, h₁⟩
      · exact absurd rfl hne
      simp only at h₁ k₁
      have hgs : s₁.pagesGetSize d.pages = .ok (s₁.total c) := by
        have := h₁.holds.pagesGetSize (x := ⟨d.pool, d.pages, c⟩) (by simp [Dataspace.held])
        exact this
      refine Meets.bind_ok hgs ?_
      refine (h₁.update (k₁.ready hr)).bind ?_
      rintro s₂ ⟨A₂, h₂, k₂⟩
      exact ⟨A₂, _, h.put hd rfl h₂ (k₁.trans k₂.kept)⟩

theorem get_head {e : Dataspace} (h : v.dataspaces = e :: l) : v.get e.id = some e := by
  simp [Server.get, h]

theorem Server.Sound.createCopy (h : v.Sound mem first A f) (hr : v.st.Ready) (hd : v.get id = some d)
    (owner : ThreadId) {pool dstAddr dstSize dstAlign srcOffs dstOffs num flags : Nat}
    (hsize : dstSize < 4294967296) (hal : dstAlign < 4294967296)
    (hnum : srcOffs + num ≤ d.size) (hsafe : v.st.CopySafe pool dstAddr dstSize dstOffs num flags) :
    Meets (v.createCopy d owner pool dstAddr dstSize dstAlign srcOffs dstOffs num flags)
      (fun r => ∃ A' f', r.2.Sound mem first A' f') fun _ => False := by
  unfold Server.createCopy
  refine (h.createDs hr owner hsize hal hsafe.1).bind ?_
  rintro ⟨r, v₁⟩ ⟨A₁, f₁, h₁, k₁, hnew⟩
  cases r with
  | error e => exact ⟨A₁, f₁, h₁⟩
  | ok i =>
    obtain ⟨e, rfl, hl, hle, -, hav⟩ := hnew i rfl
    simp only at hl h₁ k₁
    have hmem : d ∈ v₁.dataspaces := by
      rw [hl]
      exact List.mem_cons_of_mem _ (List.mem_of_find?_eq_some hd)
    have hmem' : e ∈ v₁.dataspaces := by rw [hl]; exact List.mem_cons_self
    simp only [get_head hl]
    have hcopy : Server.copyPages v₁.st e.pages d.pages dstSize srcOffs dstOffs num = .ok () := by
      refine h₁.owned.holds.copyPages (x := e.held f₁) (y := d.held f₁)
        (List.mem_map.mpr ⟨e, hmem', rfl⟩) (List.mem_map.mpr ⟨d, hmem, rfl⟩) ?_ ?_ ?_
      · exact hsafe.2 hav
      · exact hle.trans (h₁.owned.size e hmem').le
      · exact hnum.trans (h₁.owned.size d hmem).le
    refine Meets.bind_ok hcopy ?_
    refine (h₁.owned.update (k₁.ready hr)).bind fun s₂ ⟨A₂, h₂, k₂⟩ => ?_
    exact ⟨A₂, f₁, h₁.next h₁.ids h₂ k₂.kept⟩

/-! ## Runs -/

theorem getCheckClient_get {caller : ThreadId} (h : v.getCheckClient id caller = .ok d) :
    v.get id = some d := by
  unfold Server.getCheckClient at h
  split at h
  · cases h
  · split at h
    · cases h; assumption
    · cases h

theorem numCopy_le {srcSize srcOffs num : Nat} (h : srcOffs < srcSize) (hs : srcSize < 4294967296) :
    srcOffs + Server.numCopy srcSize srcOffs num ≤ srcSize := by
  unfold Server.numCopy
  rw [Word.sub_eq (by omega) hs]
  simp only
  split <;> omega

theorem Server.Sound.size_lt (h : v.Sound mem first A f) (hd : v.get id = some d) :
    d.size < 4294967296 := by
  have hmem := List.mem_of_find?_eq_some hd
  rw [h.owned.size d hmem]
  exact h.owned.holds.total_lt (x := d.held f) (List.mem_map.mpr ⟨d, hmem, rfl⟩)

theorem Server.Sound.handle (h : v.Sound mem first A f) {slab : Slab} {caller : ThreadId}
    {req : Request} (hw : req.Words) (hm : req.Manages) (hs : v.Safe slab caller req) :
    Meets (v.handle slab caller req) (fun r => ∃ A' f', r.2.Sound mem first A' f')
      fun _ => False := by
  obtain ⟨hr, hs⟩ := hs
  have h := h.congr_slab slab
  unfold Server.handle
  cases req with
  | memOpen size align flags =>
    refine (h.createDs hr caller hw.1 hw.2 hs).bind ?_
    rintro r ⟨A', f', h', -⟩
    exact ⟨A', f', h'⟩
  | dmphysOpen pool addr size align flags =>
    simp only [Server.dmphysOpen]
    split
    · exact ⟨A, f, h⟩
    next hp =>
      refine (h.createDs hr caller hw.2.1 hw.2.2 (hs (by omega))).bind ?_
      rintro r ⟨A', f', h', -⟩
      exact ⟨A', f', h'⟩
  | close id =>
    simp only [Server.close]
    split
    · exact ⟨A, f, h⟩
    next d hd =>
      refine Meets.bind (Q := fun r => ∃ A' f', r.2.Sound mem first A' f') ?_
        fun r h => by simp only [meets_pure]; exact h
      refine (h.closeDs hr (getCheckOwner_get hd)).bind ?_
      rintro v' ⟨A', f', h', -⟩
      exact ⟨A', f', h'⟩
  | resize id newSize =>
    simp only [Server.resize]
    split
    · exact ⟨A, f, h⟩
    next d hd =>
      obtain ⟨hmod, hlt, -⟩ := roundUp_page (show newSize < 4294967296 from hw)
      exact (h.resizeDs hr (getCheckRights_get hd).1 hmod hlt).bind fun r h => h
  | copy id srcOffs dstOffs num flags =>
    simp only [Server.copy]
    split
    · exact ⟨A, f, h⟩
    next d hd =>
      split
      · exact ⟨A, f, h⟩
      next hoffs =>
        have hget := getCheckClient_get hd
        refine (h.createCopy hr hget caller ?_ (by decide) (numCopy_le (by omega) (h.size_lt hget))
          (hs d hd (by omega))).bind fun r h => h
        exact (roundUp_page (Word.add_lt _ _)).2.1
  | dmphysCopy id srcOffs dstOffs num dstPool dstAddr dstSize dstAlign flags =>
    obtain ⟨-, hw2, -, -, hw5, hw6⟩ := hw
    simp only [Server.dmphysCopy]
    split
    · exact ⟨A, f, h⟩
    next d hd =>
      split
      · exact ⟨A, f, h⟩
      · split
        · exact ⟨A, f, h⟩
        next hoffs =>
          have hget := getCheckClient_get hd
          refine (h.createCopy hr hget caller ?_ hw6 (numCopy_le (by omega) (h.size_lt hget))
            (hs d hd (by omega))).bind fun r h => h
          exact max_lt hw5 (Word.add_lt _ _)
  | share id client flags =>
    simp only [Server.share]
    split
    · exact ⟨A, f, h⟩
    next d hd =>
      have hget := (getCheckRights_get hd).1
      have hsame : (d.addClient client (rightsOf flags)).2 =
          { d with
            owner := (d.addClient client (rightsOf flags)).2.owner
            clients := (d.addClient client (rightsOf flags)).2.clients } := by
        unfold Dataspace.addClient
        split <;> rfl
      split
      · refine Meets.bind (Q := fun r => ∃ A' f', r.2.Sound mem first A' f') ?_
          fun r h => by simp only [meets_pure]; exact h
        refine (h.owned.slabGrow hr).bind ?_
        rintro s₁ ⟨h₁, k₁, _⟩
        refine (h₁.update (k₁.ready hr)).bind ?_
        rintro s₂ ⟨A₂, h₂, k₂⟩
        exact ⟨A₂, f, h.putSame hget hsame h₂ (k₁.trans k₂).kept⟩
      · refine Meets.bind (Q := fun r => ∃ A' f', r.2.Sound mem first A' f') ?_
          fun r h => by simp only [meets_pure]; exact h
        refine (h.owned.update hr).bind ?_
        rintro s₂ ⟨A₂, h₂, k₂⟩
        exact ⟨A₂, f, h.putSame hget hsame h₂ k₂.kept⟩
  | revoke id client flags =>
    simp only [Server.revoke]
    split
    · exact ⟨A, f, h⟩
    next d hd =>
      have hget := (getCheckRights_get hd).1
      split
      · exact ⟨A, f, h⟩
      · split
        · obtain ⟨h₁, k₁⟩ := h.owned.slabBack hr
          exact ⟨A, f, h.putSame hget rfl h₁ k₁.kept⟩
        · exact ⟨A, f, h.putSame hget rfl h.owned (.refl _ A)⟩
  | transfer id newOwner =>
    simp only [Server.transfer]
    split
    · exact ⟨A, f, h⟩
    next d hd => exact ⟨A, f, h.putSame (getCheckOwner_get hd) rfl h.owned (.refl _ A)⟩
  | map => exact hm.elim
  | fault => exact hm.elim

end

/-- The server after its initialization: no dataspaces, and the memory `mem` of the pools is disjoint
and apart from the pages of sigma0. -/
structure Server.Fresh (v : Server) (mem : List Range) : Prop where
  pools : Reachable (fun c slab op => c.Valid op ∧ c.Safe slab op) ⟨v.st, [], mem⟩
  none : v.dataspaces = []
  disjoint : ∀ m ∈ mem, ∀ m' ∈ mem, m.pool ≠ m'.pool →
    m.addr + m.size ≤ m'.addr ∨ m'.addr + m'.size ≤ m.addr
  sigma0 : ∀ page ∈ v.st.initialPages, ∀ m ∈ mem, ¬(m.addr ≤ page / pageSize * pageSize ∧
    page / pageSize * pageSize < m.addr + m.size)

/-- The servers that requests in `G` reach. -/
inductive Server.Run (G : Server → Slab → ThreadId → Request → Prop) : Server → Prop
  | start {v : Server} {mem : List Range} (h : v.Fresh mem) : Run G v
  | step {v v' : Server} {slab : Slab} {caller : ThreadId} {req : Request} {reply : Reply}
    (h : Run G v) (hw : req.Words) (hm : req.Manages) (hg : G v slab caller req)
    (hv : v.handle slab caller req = .ok (reply, v')) : Run G v'

section
variable {v : Server} {mem : List Range} {first : List Nat} {A : Nat → Set Ptr} {f : Nat → List Ptr}
  {d : Dataspace} {G : Server → Slab → ThreadId → Request → Prop}

theorem Server.Fresh.sound (h : v.Fresh mem) :
    ∃ A, v.Sound mem v.st.initialPages A (fun _ => []) := by
  obtain ⟨A, l, g⟩ := h.pools.good fun _ _ _ h => h
  have hl : l = [] := by
    have := g.held.length_eq
    simpa [eq_comm] using this
  subst hl
  exact ⟨A, by rw [h.none]; exact .nil, ⟨by rw [h.none]; exact g.holds, by simp [h.none],
    by simp [h.none]⟩, g.cover, rfl⟩

theorem State.OnPage.covered {s : State} {a : Ptr} {P page : Nat} (h : s.OnPage a page)
    (ha : a ∈ A P) (hr : PageArea (s.addr a) (s.size a)) : Covered s A P (page * pageSize) := by
  obtain ⟨h1, h2⟩ := h
  have := hr.addr_aligned
  refine ⟨a, ha, ?_, h2⟩
  unfold pageSize at *
  omega

/-- Two areas of the pools share no page. -/
theorem Server.Sound.apart (h : v.Sound mem first A f)
    (hmem : ∀ m ∈ mem, ∀ m' ∈ mem, m.pool ≠ m'.pool →
      m.addr + m.size ≤ m'.addr ∨ m'.addr + m'.size ≤ m.addr) {a b : Ptr} {P Q : Nat}
    (ha : a ∈ A P) (hb : b ∈ A Q) (hab : a ≠ b) : v.st.Apart a b := by
  intro page hpa hpb
  have I := h.owned.holds.inv
  have hra := I.area.range ha
  have hrb := I.area.range hb
  by_cases hPQ : P = Q
  · subst hPQ
    have := I.area.apart ha hb hab
    obtain ⟨h1, h2⟩ := hpa
    obtain ⟨h3, h4⟩ := hpb
    have h5 := hra.addr_aligned
    have h6 := hrb.addr_aligned
    unfold pageSize at *
    omega
  · obtain ⟨m, hm, rfl, h1, h2⟩ := (h.cover P _).mp (hpa.covered ha hra)
    obtain ⟨m', hm', rfl, h3, h4⟩ := (h.cover Q _).mp (hpb.covered hb hrb)
    have := hmem m hm m' hm' hPQ
    omega

theorem Server.Sound.areas (h : v.Sound mem first A f) (hd : d ∈ v.dataspaces) {a : Ptr} :
    v.st.AreaOf d a ↔ a ∈ f d.id := by
  have hl := h.owned.holds.links (d.held f) (List.mem_map.mpr ⟨d, hd, rfl⟩)
  constructor
  · rintro ⟨l, hl', ha⟩
    rwa [hl'.unique hl] at ha
  · exact fun ha => ⟨_, hl, ha⟩

theorem Server.Sound.isolated (h : v.Sound mem v.st.initialPages A f)
    (hmem : ∀ m ∈ mem, ∀ m' ∈ mem, m.pool ≠ m'.pool →
      m.addr + m.size ≤ m'.addr ∨ m'.addr + m'.size ≤ m.addr)
    (hinit : ∀ page ∈ v.st.initialPages, ∀ m ∈ mem, ¬(m.addr ≤ page / pageSize * pageSize ∧
      page / pageSize * pageSize < m.addr + m.size)) : v.Isolated := by
  have H := h.owned.holds
  have I := H.inv
  have hheld : ∀ d ∈ v.dataspaces, d.held f ∈ v.dataspaces.map (·.held f) :=
    fun d hd => List.mem_map.mpr ⟨d, hd, rfl⟩
  have hA : ∀ d ∈ v.dataspaces, ∀ a, v.st.AreaOf d a → a ∈ A d.pool :=
    fun d hd a ha => H.mem _ (hheld d hd) a ((h.areas hd).mp ha)
  have hused : ∀ d ∈ v.dataspaces, ∀ a, v.st.AreaOf d a → a ∈ heldAreas (v.dataspaces.map (·.held f)) :=
    fun d hd a ha => mem_heldAreas hd ((h.areas hd).mp ha)
  obtain ⟨L, HL, hL⟩ := I.area
  have hnd := List.nodup_append.mp I.owned
  refine ⟨?_, fun P => ⟨L P, HL.links P⟩, ?_, ?_, ?_, ?_, ?_⟩
  · exact fun d hd => ⟨_, H.links _ (hheld d hd)⟩
  · exact fun d hd a ha => (I.area.range (hA d hd a ha)).pos
  · have hpw : (v.dataspaces.map fun d => (d.held f).areas).Pairwise List.Disjoint := by
      have := (List.nodup_flatten.mp hnd.1).2
      rw [List.map_map] at this
      exact this
    rw [List.pairwise_map] at hpw
    refine hpw.imp_of_mem fun {d e} hd he hdis a b ha hb => ?_
    refine h.apart hmem (hA d hd a ha) (hA e he b hb) ?_
    rintro rfl
    exact hdis ((h.areas hd).mp ha) ((h.areas he).mp hb)
  · rintro d hd a ha P b ⟨⟨L', hL', hb⟩, hfree⟩
    have hbA : b ∈ A P := by
      rw [(hL'.2.isSList).unique (hL'.1 ▸ (HL.links P).1 ▸ (HL.links P).2.isSList)] at hb
      exact (hL P b).mp hb
    refine h.apart hmem (hA d hd a ha) hbA ?_
    rintro rfl
    have := (I.flag P a hbA (by simp)).mpr (.inl (hused d hd a ha))
    simp [hfree] at this
  · intro d hd a ha b hb
    refine h.apart hmem (hA d hd a ha) (I.internal b hb) ?_
    rintro rfl
    exact hnd.2.2 a (hused d hd a ha) a hb rfl
  · intro d hd a ha page hpage hon
    have hra := I.area.range (hA d hd a ha)
    obtain ⟨m, hm, -, h1, h2⟩ := (h.cover d.pool _).mp (hon.covered (hA d hd a ha) hra)
    exact hinit page hpage m hm ⟨h1, h2⟩

theorem Server.Run.sound
    (h : Server.Run (fun v slab caller req => v.Safe slab caller req) v) :
    ∃ mem A f, v.Sound mem v.st.initialPages A f ∧
      (∀ m ∈ mem, ∀ m' ∈ mem, m.pool ≠ m'.pool →
        m.addr + m.size ≤ m'.addr ∨ m'.addr + m'.size ≤ m.addr) ∧
      ∀ page ∈ v.st.initialPages, ∀ m ∈ mem, ¬(m.addr ≤ page / pageSize * pageSize ∧
        page / pageSize * pageSize < m.addr + m.size) := by
  induction h with
  | @start v mem h =>
    obtain ⟨A, hs⟩ := h.sound
    exact ⟨mem, A, _, hs, h.disjoint, h.sigma0⟩
  | step h hw hm hg hv ih =>
    obtain ⟨mem, A, f, hs, hmem, hinit⟩ := ih
    obtain ⟨A', f', hs'⟩ := (hs.handle hw hm hg).post hv
    have hfirst := hs'.initial
    exact ⟨mem, A', f', hfirst ▸ hs', hmem, fun page hp => hinit page (hfirst ▸ hp)⟩

/-- Requests that do not overflow find the dataspaces isolated, leave them so and do not panic. -/
theorem dataspaces_isolated
    (h : Server.Run (fun v slab caller req => v.Safe slab caller req) v) :
    v.Isolated ∧ ∀ slab caller req, req.Words → req.Manages → v.Safe slab caller req →
      ∀ e, v.handle slab caller req ≠ .error e := by
  obtain ⟨mem, A, f, hs, hmem, hinit⟩ := h.sound
  exact ⟨hs.isolated hmem hinit, fun slab caller req hw hm hg e he => (hs.handle hw hm hg).fail he⟩

theorem Config.next_addFreeArea {c : Config} {slab : Slab} {P x n : Nat}
    (hok : (c.exec slab (.addFreeArea P x n)).toBool = true) :
    c.next slab (.addFreeArea P x n) =
      ⟨(c.next slab (.addFreeArea P x n)).st, c.held, ⟨P, x, n⟩ :: c.mem⟩ := by
  unfold Config.next Config.exec at *
  cases h : ({ c.st with slab := slab } : State).dmphysPagesAddFreeArea P x n with
  | ok s' => simp [h]
  | error e => simp [h, Except.toBool] at hok

/-- A server with one area of free pages. -/
theorem Server.fresh_area {x n : Nat} (h0 : v.dataspaces = [])
    (hst : v.st = ((Config.mk (.init (fun _ => none) (fun _ => 0) .plain) [] []).next .plain
      (.addFreeArea 0 x n)).st)
    (hok : ((Config.mk (.init (fun _ => none) (fun _ => 0) .plain) [] []).exec .plain
      (.addFreeArea 0 x n)).toBool = true)
    (hx : x % pageSize = 0) (hn : n % pageSize = 0 ∧ 0 < n ∧ n < 4294967296)
    (hlt : x + n < 4294967296) (hinit : v.st.initialPages = []) : v.Fresh [⟨0, x, n⟩] := by
  have hreach := Reachable.next (G := fun c slab op => c.Valid op ∧ c.Safe slab op)
    (.init (fun _ => none) (fun _ => 0) .plain) ⟨?_, ?_⟩ hok
  · rw [Config.next_addFreeArea hok, ← hst] at hreach
    refine ⟨hreach, h0, ?_, by simp [hinit]⟩
    intro m hm m' hm' hne
    rw [List.mem_singleton.mp hm, List.mem_singleton.mp hm'] at hne
    exact absurd rfl hne
  · exact ⟨hn, hx, hlt.le, by simp⟩
  · exact ⟨show (State.init (fun _ => none) (fun _ => 0) .plain).Room by decide, hlt⟩

theorem fourPages_fresh : fourPages.Fresh [⟨0, 0x1000, 0x4000⟩] :=
  Server.fresh_area rfl rfl (by decide +kernel) (by decide) (by decide) (by decide) (by decide +kernel)

theorem Server.Run.next (h : Server.Run G v) (slab : Slab) (caller : ThreadId) (req : Request)
    (hw : req.Words) (hm : req.Manages) (hg : G v slab caller req)
    (hok : (v.handle slab caller req).toBool = true) : Server.Run G (v.next slab caller req).2 := by
  cases hr : v.handle slab caller req with
  | ok r =>
    simp only [Server.next, hr]
    exact .step h hw hm hg hr
  | error e => simp [hr, Except.toBool] at hok

theorem dataspaces_isolated_fourPages :
    (fourPages.next .plain ⟨1, 0⟩ (.memOpen 0x1000 0 0)).2.Isolated := by
  have hstart : Server.Run (fun v slab caller req => v.Safe slab caller req) fourPages :=
    .start fourPages_fresh
  have hsafe : fourPages.Safe .plain ⟨1, 0⟩ (.memOpen 0x1000 0 0) := by
    refine ⟨⟨?_, by decide +kernel⟩, fun _ => ?_⟩
    · exact Nat.zero_le _
    · rw [if_pos rfl]
      exact fun hc => absurd hc (by decide)
  exact (dataspaces_isolated (hstart.next .plain ⟨1, 0⟩ (.memOpen 0x1000 0 0)
    ⟨by decide, by decide⟩ trivial hsafe (by decide +kernel))).1

/-- The address of a dataspace is not rounded: it shares its first page with a free area. -/
theorem dataspaces_open_unaligned : ¬∀ v, Server.Run (fun _ _ _ _ => True) v → v.Isolated := by
  intro h
  have hstart : Server.Run (fun _ _ _ _ => True) fourPages := .start fourPages_fresh
  have hiso := h _ (hstart.next .plain ⟨1, 0⟩ (.dmphysOpen 0 0x1800 0x1000 0 0)
    ⟨by decide, by decide, by decide⟩ trivial trivial (by decide +kernel))
  generalize hv : (fourPages.next .plain ⟨1, 0⟩ (.dmphysOpen 0 0x1800 0x1000 0 0)).2 = v at hiso
  have hd : v.dataspaces = [⟨1, ⟨1, 0⟩, [], 0, 1, 0x1000, 0⟩] := by subst hv; decide +kernel
  have hfree : v.st.FreeIn 0 2 := by
    have hlinks : IsDList v.st.areaNext v.st.areaPrev (v.st.pools 0).areaList [2, 1, 16, 8, 4] := by
      subst hv
      refine ⟨by decide +kernel, ?_⟩
      simp only [Links]
      decide +kernel
    refine ⟨⟨_, hlinks, by decide⟩, ?_⟩
    subst hv
    decide +kernel
  have harea : v.st.AreaOf ⟨1, ⟨1, 0⟩, [], 0, 1, 0x1000, 0⟩ 1 := by
    refine ⟨[1], ⟨rfl, ?_⟩, by decide⟩
    have : v.st.dsNext 1 = none := by subst hv; decide +kernel
    exact this
  refine hiso.free _ (by rw [hd]; exact List.mem_cons_self) 1 harea 0 2 hfree 1 ?_ ?_
  · refine ⟨?_, ?_⟩ <;> subst hv <;> decide +kernel
  · refine ⟨?_, ?_⟩ <;> subst hv <;> decide +kernel

end

end L4env.DMphys
