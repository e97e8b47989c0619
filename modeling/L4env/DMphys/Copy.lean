import L4env.DMphys.Isolation

/-!
# Copies of dataspaces

A copy request either fails or creates a dataspace that holds the copied bytes at their offset and
zeros everywhere else, as long as the copied part is inside the new dataspace. Its size is computed
without a check for an overflow: if the sum of the offset and the number of bytes wraps around, the
loops run over the end of the new dataspace.
-/

namespace L4env.DMphys

/-- `dst` has `n` bytes of `src` at the offset `dstOffs` and zeros elsewhere, and `src` is the same. -/
structure Machine.IsCopy (w w' : Machine) (src dst : Dataspace) (srcOffs dstOffs n : Nat) : Prop where
  copied : ∀ i < n, ∃ b, w.byte src (srcOffs + i) = some b ∧ w'.byte dst (dstOffs + i) = some b
  zero : ∀ i < dst.size, ¬(dstOffs ≤ i ∧ i < dstOffs + n) → w'.byte dst i = some 0
  source : w'.server.get src.id = some src ∧ ∀ i, w'.byte src i = w.byte src i

/-- A copy request returned an error, or created a copy of `num` bytes or of the rest of the source,
whichever is smaller. -/
def Machine.Copied (w : Machine) (id srcOffs dstOffs num : Nat) :
    Except Panic (Except Err Nat × Machine) → Prop
  | .error _ => False
  | .ok (.error _, _) => True
  | .ok (.ok i, w') => ∃ src dst, w.server.get id = some src ∧ w.server.get i = none ∧
      w'.server.get i = some dst ∧ w.IsCopy w' src dst srcOffs dstOffs (min num (src.size - srcOffs))

/-- No dataspace of this size can be created, or the copied part is inside the memory that is
granted for it. -/
def Server.CopyFits (v : Server) (caller : ThreadId)
    (pool dstAddr dstSize dstAlign dstOffs n flags : Nat) : Prop :=
  (∀ i v', v.createDs caller pool dstAddr dstSize dstAlign flags ≠ .ok (.ok i, v')) ∨
    dstOffs + n ≤ grantedAt dstAddr flags (Word.roundUp dstSize pageSize)

section
variable {v : Server} {w w' : Machine} {mem : List Range} {first : List Nat} {A A' : Nat → Set Ptr}
  {f : Nat → List Ptr} {d e : Dataspace} {id : Nat} {s : State}

theorem Server.Sound.pageList (h : v.Sound mem first A f) (hd : d ∈ v.dataspaces) :
    PageList v.st d.pages (f d.id) :=
  h.owned.holds.pageList (x := d.held f) (List.mem_map.mpr ⟨d, hd, rfl⟩)

theorem Server.Sound.byte_eq (h : w.server.Sound mem first A f) (hd : d ∈ w.server.dataspaces)
    {i : Nat} (hi : i < d.size) :
    w.byte d i = some (w.mem (locate (w.server.st.pieces (f d.id)) i)) := by
  have hp := h.pageList hd
  obtain ⟨a, o, he, ho, -, hadd, -, -, hloc⟩ := hp.findOffset_some (h.owned.size d hd ▸ hi)
  have := hloc 0 (by omega)
  simp only [Nat.add_zero] at this
  simp only [Machine.byte, he, hadd, this]

theorem Server.Sound.byte_none (h : w.server.Sound mem first A f) (hd : d ∈ w.server.dataspaces)
    {i : Nat} (hi : d.size ≤ i) : w.byte d i = none := by
  have he := (h.pageList hd).findOffset_none (h.owned.size d hd ▸ hi)
  simp only [Machine.byte, he]

/-- Two dataspaces share no area. -/
theorem Server.Sound.disjoint (h : v.Sound mem first A f) (hd : d ∈ v.dataspaces)
    (he : e ∈ v.dataspaces) (hne : d.id ≠ e.id) : (f d.id).Disjoint (f e.id) := by
  have hnd := (List.nodup_flatten.mp (List.nodup_append.mp h.owned.holds.inv.owned).1).2
  rw [List.map_map, List.pairwise_map] at hnd
  have : Std.Symm fun d e : Dataspace => (f d.id).Disjoint (f e.id) := ⟨fun _ _ h => h.symm⟩
  have hnd : v.dataspaces.Pairwise fun d e => (f d.id).Disjoint (f e.id) := hnd
  exact hnd.forall hd he fun h => hne (by rw [h])

/-- Two dataspaces share no byte. -/
theorem Server.Sound.locate_ne (h : v.Sound mem first A f)
    (hmem : ∀ m ∈ mem, ∀ m' ∈ mem, m.pool ≠ m'.pool →
      m.addr + m.size ≤ m'.addr ∨ m'.addr + m'.size ≤ m.addr)
    (hd : d ∈ v.dataspaces) (he : e ∈ v.dataspaces) (hne : d.id ≠ e.id) {i j : Nat}
    (hi : i < d.size) (hj : j < e.size) :
    locate (v.st.pieces (f d.id)) i ≠ locate (v.st.pieces (f e.id)) j := by
  intro heq
  rw [h.owned.size d hd, ← State.extent_pieces] at hi
  rw [h.owned.size e he, ← State.extent_pieces] at hj
  obtain ⟨_, hr, h1, h2⟩ := locate_mem hi
  obtain ⟨_, hr', h3, h4⟩ := locate_mem hj
  obtain ⟨a, ha, rfl⟩ := List.mem_map.mp hr
  obtain ⟨b, hb, rfl⟩ := List.mem_map.mp hr'
  have hA := fun (d : Dataspace) (hd : d ∈ v.dataspaces) =>
    h.owned.holds.mem (d.held f) (List.mem_map.mpr ⟨d, hd, rfl⟩)
  have hab : a ≠ b := by
    rintro rfl
    exact h.disjoint hd he hne ha hb
  refine h.apart hmem (hA d hd a ha) (hA e he b hb) hab
    (locate (v.st.pieces (f d.id)) i / pageSize) ⟨?_, ?_⟩ ⟨?_, ?_⟩
  all_goals
    unfold pageSize
    simp only at h1 h2 h3 h4
    omega

theorem KeptAreas.pieces {s' : State} {l : List Dataspace} (h : KeptAreas l f s A s' A') (hd : d ∈ l) :
    s'.pieces (f d.id) = s.pieces (f d.id) :=
  Frame.pieces h fun _ ha => mem_heldAreas hd ha

/-- The contents of the new dataspace and of the source, by the addresses of their bytes. -/
theorem Server.Sound.isCopy {f' : Nat → List Ptr} {srcOffs dstOffs n : Nat}
    (h : w.server.Sound mem first A f) (h' : w'.server.Sound mem first A' f')
    (hget : w.server.get d.id = some d) (hl : w'.server.dataspaces = e :: w.server.dataspaces)
    (hne : e.id ≠ d.id)
    (hpieces : w'.server.st.pieces (f' d.id) = w.server.st.pieces (f d.id))
    (hdst : ∀ i < e.size, w'.mem (locate (w'.server.st.pieces (f' e.id)) i) =
      PageList.copied w.mem (locate (w.server.st.pieces (f d.id))) srcOffs dstOffs n i)
    (hsame : ∀ j < d.size, w'.mem (locate (w.server.st.pieces (f d.id)) j) =
      w.mem (locate (w.server.st.pieces (f d.id)) j))
    (hin : dstOffs + n ≤ e.size) (hsrc : srcOffs + n ≤ d.size) :
    w.IsCopy w' d e srcOffs dstOffs n := by
  have hd := List.mem_of_find?_eq_some hget
  have he : e ∈ w'.server.dataspaces := by rw [hl]; exact List.mem_cons_self
  have hd' : d ∈ w'.server.dataspaces := by rw [hl]; exact List.mem_cons_of_mem _ hd
  refine ⟨fun i hi => ?_, fun i hi hout => ?_, ?_, fun i => ?_⟩
  · refine ⟨_, h.byte_eq hd (by omega), ?_⟩
    rw [h'.byte_eq he (by omega), hdst _ (by omega)]
    have hin' : dstOffs ≤ dstOffs + i ∧ dstOffs + i < dstOffs + n := by omega
    unfold PageList.copied
    rw [if_pos hin', Nat.add_sub_cancel_left]
  · rw [h'.byte_eq he hi, hdst i hi]
    exact congrArg some (if_neg hout)
  · unfold Server.get at hget ⊢
    rwa [hl, List.find?_cons_of_neg (by simpa using hne)]
  · rcases Nat.lt_or_ge i d.size with hi | hi
    · rw [h.byte_eq hd hi, h'.byte_eq hd' hi, hpieces, hsame i hi]
    · rw [h.byte_none hd hi, h'.byte_none hd' hi]

/-! ## `__create_copy` -/

theorem Server.Sound.createCopy_copied (h : w.server.Sound mem first A f)
    (hmem : ∀ m ∈ mem, ∀ m' ∈ mem, m.pool ≠ m'.pool →
      m.addr + m.size ≤ m'.addr ∨ m'.addr + m'.size ≤ m.addr)
    (hr : w.server.st.Ready) (hd : w.server.get id = some d) (caller : ThreadId)
    (pool dstAddr dstSize dstAlign srcOffs dstOffs num flags : Nat) (hsize : dstSize < 4294967296)
    (hal : dstAlign < 4294967296) (hoffs : dstOffs < 4294967296) (hsrc : srcOffs < d.size) (hsafe : w.server.st.OpenSafe pool dstAddr dstSize flags) :
    w.Copied id srcOffs dstOffs num (w.createCopy d caller pool dstAddr dstSize dstAlign srcOffs
      dstOffs (min num (d.size - srcOffs)) flags) ↔
      w.server.CopyFits caller pool dstAddr dstSize dstAlign dstOffs (min num (d.size - srcOffs))
        flags := by
  generalize hn : min num (d.size - srcOffs) = n
  have hdmem := List.mem_of_find?_eq_some hd
  have hid : d.id = id := by simpa using List.find?_some hd
  have hc := h.machineCreateDs hr caller hsize hal hsafe
  have hserver := w.createDs_server caller pool dstAddr dstSize dstAlign flags
  unfold Machine.createCopy Server.CopyFits
  rw [← hserver]
  cases heq : w.createDs caller pool dstAddr dstSize dstAlign flags with
  | error e => exact (hc.fail heq).elim
  | ok r =>
    obtain ⟨A₁, f₁, h₁, k₁, hf, hnew⟩ := hc.post heq
    obtain ⟨o, w₁⟩ := r
    cases o with
    | error e =>
      refine iff_of_true trivial (.inl fun i v' hi => ?_)
      cases hi
    | ok i =>
      obtain ⟨e, rfl, hl, hle, hsz, hav, hw⟩ := hnew i rfl
      simp only at hl h₁ k₁ hw
      have hmem' : e ∈ w₁.server.dataspaces := by rw [hl]; exact List.mem_cons_self
      have hdmem₁ : d ∈ w₁.server.dataspaces := by rw [hl]; exact List.mem_cons_of_mem _ hdmem
      have hp := h₁.pageList hmem'
      have hq := h₁.pageList hdmem₁
      have hsz' := h₁.owned.size e hmem'
      have hdsz := h₁.owned.size d hdmem₁
      simp only [ok_bind, get_head hl]
      by_cases hfit : dstOffs + n ≤ e.size
      · refine iff_of_true ?_ (.inr (by rwa [← hsz]))
        have hne : e.id ≠ d.id := fun he => by
          have := h₁.ids
          rw [hl, List.map_cons, List.nodup_cons] at this
          exact this.1 (he ▸ List.mem_map.mpr ⟨d, hdmem, rfl⟩)
        have hsep : ∀ i < w₁.server.st.total (f₁ e.id), ∀ j < w₁.server.st.total (f₁ d.id), _ :=
          fun i hi j hj => h₁.locate_ne hmem hmem' hdmem₁ hne (hsz' ▸ hi) (hdsz ▸ hj)
        obtain ⟨m', hm', hw'⟩ := hp.copyPages_ok hq hsep (m := w₁.mem) (hsz' ▸ hfit) (hsz' ▸ hle)
          (show srcOffs + n ≤ w₁.server.st.total (f₁ d.id) by omega)
        have hupd := h₁.owned.update (k₁.ready hr)
        rw [hm', ok_bind]
        cases hs₂ : w₁.server.st.dmphysInternalAllocUpdate with
        | error e => exact (hupd.fail hs₂).elim
        | ok s₂ =>
          obtain ⟨A₂, h₂, k₂⟩ := hupd.post hs₂
          have h₂ : Server.Sound { w₁.server with st := s₂ } mem first A₂ f₁ :=
            h₁.next h₁.ids h₂ k₂.kept
          have hpe : s₂.pieces (f₁ e.id) = w₁.server.st.pieces (f₁ e.id) := k₂.pieces hmem'
          have hpd : w₁.server.st.pieces (f₁ d.id) = w.server.st.pieces (f d.id) := by
            rw [hf d hdmem, k₁.pieces hdmem]
          have hpd' := (k₂.pieces hdmem₁).trans hpd
          rw [hpd] at hsep hw'
          -- no step writes to the source
          have hsrc₁ : ∀ j < d.size, w₁.mem (locate (w.server.st.pieces (f d.id)) j) =
              w.mem (locate (w.server.st.pieces (f d.id)) j) := fun j hj =>
            hw.other fun k hk => hsep _ (by omega) j (hdsz ▸ hj)
          have hsrc₂ : ∀ j < d.size, m' (locate (w.server.st.pieces (f d.id)) j) =
              w₁.mem (locate (w.server.st.pieces (f d.id)) j) := fun j hj =>
            hw'.other fun k hk => hsep _ (by omega) j (hdsz ▸ hj)
          refine ⟨d, e, hd, ?_, get_head hl, ?_⟩
          · have := h₁.ids
            rw [hl, List.map_cons, List.nodup_cons] at this
            refine List.find?_eq_none.mpr fun x hx hxe => this.1 ?_
            exact List.mem_map.mpr ⟨x, hx, by simpa using hxe⟩
          rw [hn]
          refine h.isCopy h₂ (hid ▸ hd) hl hne hpd' (fun i hi => ?_)
            (fun j hj => (hsrc₂ j hj).trans (hsrc₁ j hj)) hfit (by omega)
          simp only [hpe]
          rcases Nat.lt_or_ge i (max dstSize (dstOffs + n)) with hlt | hge
          · have := hw'.written i hlt
            rw [Nat.zero_add] at this
            rw [this]
            unfold PageList.copied
            split
            · exact hsrc₁ _ (by omega)
            · rfl
          · rw [hw'.frame _ fun k hk he => ?_]
            · have := hw.written i hi
              rw [Nat.zero_add] at this
              rw [this]
              exact (if_neg (by omega)).symm
            · have := hp.inj (by omega) (by omega) he
              omega
      · refine iff_of_false ?_ (not_or.mpr ⟨?_, by rwa [← hsz]⟩)
        · rw [hp.copyPages_fails hq hoffs (by omega) (by omega)]
          exact fun h => h
        · exact fun hno => hno e.id w₁.server rfl

/-! ## The requests -/

/-- The machine when a request arrives; `slab` are the answers of the slab caches meanwhile. -/
def Machine.of (v : Server) (slab : Slab) (m : Memory) : Machine :=
  ⟨{ v with st := { v.st with slab := slab } }, m⟩

/-- The size of the copy that the generic request asks for. -/
def copySize (srcSize srcOffs dstOffs num : Nat) : Nat :=
  Word.roundUp (Word.add (if num = wholeDs then Server.numCopy srcSize srcOffs num else num) dstOffs)
    pageSize

/-- The size of the copy that the request of DMphys asks for. -/
def dmphysCopySize (srcSize srcOffs dstOffs num dstSize : Nat) : Nat :=
  max dstSize (Word.add dstOffs (Server.numCopy srcSize srcOffs num))

theorem numCopy_eq {srcSize srcOffs : Nat} (num : Nat) (h : srcOffs < srcSize) (hs : srcSize < 4294967296) :
    Server.numCopy srcSize srcOffs num = min num (srcSize - srcOffs) := by
  unfold Server.numCopy wholeDs
  rw [Word.sub_eq h.le hs]
  simp only
  split <;> omega

/-- The copy requests in a server that was reached without an overflow: a request whose memory can be
allocated in whole pages is answered with an exact copy or an error if and only if the copied part is
inside the new dataspace. -/
theorem copy_exact_iff {v : Server} (h : Server.Run (fun v slab caller req => v.Safe slab caller req) v)
    (slab : Slab) (m : Memory) (hr : (Machine.of v slab m).server.st.Ready) (caller : ThreadId)
    (id srcOffs dstOffs num dstPool dstAddr dstSize dstAlign flags : Nat)
    (hoffs : dstOffs < 4294967296) (hsize : dstSize < 4294967296) (hal : dstAlign < 4294967296) :
    ((∀ d, v.getCheckClient id caller = .ok d → srcOffs < d.size →
        v.st.OpenSafe (if samePool flags then d.pool else defaultPool) anyAddr
          (copySize d.size srcOffs dstOffs num) flags) →
      ((Machine.of v slab m).Copied id srcOffs dstOffs num
          ((Machine.of v slab m).copy caller id srcOffs dstOffs num flags) ↔
        ∀ d, v.getCheckClient id caller = .ok d → srcOffs < d.size →
          (Machine.of v slab m).server.CopyFits caller
            (if samePool flags then d.pool else defaultPool) anyAddr
            (copySize d.size srcOffs dstOffs num) pageSize dstOffs (min num (d.size - srcOffs)) flags)) ∧
    ((∀ d, v.getCheckClient id caller = .ok d → srcOffs < d.size →
        samePool flags = true ∨ dstPool < numPools →
        v.st.OpenSafe (if samePool flags then d.pool else dstPool) dstAddr
          (dmphysCopySize d.size srcOffs dstOffs num dstSize) flags) →
      ((Machine.of v slab m).Copied id srcOffs dstOffs num
          ((Machine.of v slab m).dmphysCopy caller id srcOffs dstOffs num dstPool dstAddr dstSize
            dstAlign flags) ↔
        ∀ d, v.getCheckClient id caller = .ok d → srcOffs < d.size →
          samePool flags = true ∨ dstPool < numPools →
          (Machine.of v slab m).server.CopyFits caller
            (if samePool flags then d.pool else dstPool) dstAddr
            (dmphysCopySize d.size srcOffs dstOffs num dstSize) dstAlign dstOffs
            (min num (d.size - srcOffs)) flags)) := by
  obtain ⟨mem, A, f, hs, hmem, -⟩ := h.sound
  have hs : (Machine.of v slab m).server.Sound mem v.st.initialPages A f := hs.congr_slab slab
  have hcheck : (Machine.of v slab m).server.getCheckClient id caller = v.getCheckClient id caller := rfl
  refine ⟨fun hsafe => ?_, fun hsafe => ?_⟩
  · unfold Machine.copy
    rw [hcheck]
    cases hd : v.getCheckClient id caller with
    | error e => exact iff_of_true trivial (by simp)
    | ok d =>
      simp only
      split
      next hle =>
        refine iff_of_true trivial fun d' hd' hlt => ?_
        cases hd'
        omega
      next hgt =>
        have hget := getCheckClient_get (hcheck.trans hd)
        have hnum := numCopy_eq num (not_le.mp hgt) (hs.size_lt hget)
        have hiff := hs.createCopy_copied hmem hr hget caller
          (if samePool flags then d.pool else defaultPool) anyAddr
          (copySize d.size srcOffs dstOffs num) pageSize srcOffs dstOffs num flags
          (roundUp_page (Word.add_lt _ _)).2.1 (by decide) hoffs (not_le.mp hgt) (hsafe d hd (not_le.mp hgt))
        rw [← hnum] at hiff
        refine hiff.trans ⟨fun hfit d' hd' _ => ?_, fun hfit => ?_⟩
        · cases hd'
          rwa [← hnum]
        · rw [hnum]
          exact hfit d rfl (not_le.mp hgt)
  · unfold Machine.dmphysCopy
    rw [hcheck]
    cases hd : v.getCheckClient id caller with
    | error e => exact iff_of_true trivial (by simp)
    | ok d =>
      simp only
      split
      next hpool =>
        refine iff_of_true trivial fun d' hd' hlt hp => ?_
        rcases hp with hp | hp
        · rw [hp] at hpool
          cases hpool.1
        · omega
      next hpool =>
        have hpool : samePool flags = true ∨ dstPool < numPools := by
          cases hsp : samePool flags with
          | true => exact .inl rfl
          | false => exact .inr (not_le.mp fun hle => hpool ⟨hsp, hle⟩)
        split
        next hle =>
          refine iff_of_true trivial fun d' hd' hlt => ?_
          cases hd'
          omega
        next hgt =>
          have hget := getCheckClient_get (hcheck.trans hd)
          have hnum := numCopy_eq num (not_le.mp hgt) (hs.size_lt hget)
          have hiff := hs.createCopy_copied hmem hr hget caller
            (if samePool flags then d.pool else dstPool) dstAddr
            (dmphysCopySize d.size srcOffs dstOffs num dstSize) dstAlign srcOffs dstOffs num flags
            (max_lt hsize (Word.add_lt _ _)) hal hoffs (not_le.mp hgt)
            (hsafe d hd (not_le.mp hgt) hpool)
          rw [← hnum] at hiff
          refine hiff.trans ⟨fun hfit d' hd' _ _ => ?_, fun hfit => ?_⟩
          · cases hd'
            rwa [← hnum]
          · rw [hnum]
            exact hfit d rfl (not_le.mp hgt) hpool

/-- Sixty-four pages and no dataspace. -/
def manyPages : Server where
  st := ((Config.mk (.init (fun _ => none) (fun _ => 0) .plain) [] []).next .plain
    (.addFreeArea 0 0x1000 0x40000)).st
  memMap := emptyMap
  dataspaces := []
  lastId := 0

/-- A client has a dataspace of one page. -/
def onePage : Server := (manyPages.next .plain ⟨1, 0⟩ (.memOpen 0x1000 0 0)).2

theorem onePage_run : Server.Run (fun v slab caller req => v.Safe slab caller req) onePage := by
  have hfresh : manyPages.Fresh [⟨0, 0x1000, 0x40000⟩] :=
    Server.fresh_area rfl rfl (by decide +kernel) (by decide) (by decide) (by decide)
      (by decide +kernel)
  have hstart : Server.Run (fun v slab caller req => v.Safe slab caller req) manyPages := .start hfresh
  refine hstart.next .plain ⟨1, 0⟩ (.memOpen 0x1000 0 0) ⟨by decide, by decide⟩ trivial
    ⟨⟨Nat.zero_le _, by decide +kernel⟩, fun _ => ?_⟩ (by decide +kernel)
  rw [if_pos rfl]
  exact fun hc => absurd hc (by decide)

theorem onePage_ready (m : Memory) : (Machine.of onePage .plain m).server.st.Ready :=
  ⟨Nat.zero_le _, show (Machine.of onePage .plain fun _ => 0).server.st.Room by decide +kernel⟩

/-- Half of the page is copied to the second half of a new one. -/
theorem copy_exact_iff_onePage : (Machine.of onePage .plain fun _ => 7).Copied 1 0 0x800 0x800
    ((Machine.of onePage .plain fun _ => 7).copy ⟨1, 0⟩ 1 0 0x800 0x800 0) := by
  refine ((copy_exact_iff onePage_run .plain (fun _ => 7) (onePage_ready _) ⟨1, 0⟩ 1 0 0x800 0x800
    0 0 0 0 0 (by decide) (by decide) (by decide)).1 fun d _ _ => ?_).mpr fun d _ _ => .inr ?_
  · intro _
    rw [if_pos rfl]
    exact fun hc => absurd hc (by decide)
  · have hsize : copySize d.size 0 0x800 0x800 = 0x1000 := by
      unfold copySize
      rw [if_neg (by decide)]
      decide +kernel
    rw [hsize]
    have : grantedAt anyAddr 0 (Word.roundUp 0x1000 pageSize) = 0x1000 := by
      decide +kernel
    omega

/-- The offset and the number of bytes add up to `0x1000` modulo `2 ^ 32`: the new dataspace ends in
front of the copied part. -/
theorem copy_overruns : ¬∀ v : Server, Server.Run (fun v slab caller req => v.Safe slab caller req) v →
    ∀ (slab : Slab) (m : Memory), (Machine.of v slab m).server.st.Ready →
      ∀ caller id srcOffs dstOffs num flags, srcOffs < 4294967296 → dstOffs < 4294967296 →
        num < 4294967296 → (Machine.of v slab m).Copied id srcOffs dstOffs num
          ((Machine.of v slab m).copy caller id srcOffs dstOffs num flags) := by
  intro hall
  have hcopied := hall onePage onePage_run .plain (fun _ => 0) (onePage_ready _) ⟨1, 0⟩ 1 0 0x2000
    0xfffff000 0 (by decide) (by decide) (by decide)
  have hfail : ((Machine.of onePage .plain fun _ => 0).copy ⟨1, 0⟩ 1 0 0x2000 0xfffff000 0).toBool =
      false := by decide +kernel
  cases hr : (Machine.of onePage .plain fun _ => 0).copy ⟨1, 0⟩ 1 0 0x2000 0xfffff000 0 with
  | error e =>
    rw [hr] at hcopied
    exact hcopied
  | ok r =>
    rw [hr] at hfail
    cases hfail

end

end L4env.DMphys
