import L4env.DMphys.Owned
import L4env.Util.Scatter

/-!
# The contents of dataspaces

The server with the memory that it clears and copies. Physical memory is mapped at its physical
addresses (`DMPHYS_MEMMAP_START` is 0). A new dataspace is cleared, and `__create_copy` fills the part
in front of the copied bytes, copies them piece by piece and fills the rest.
-/

namespace L4env.DMphys

abbrev Memory := Nat → UInt8

structure Machine where
  server : Server
  mem : Memory

/-- `dmphys_pages_clear` -/
def State.pagesClear (s : State) : Nat → Option Ptr → Memory → Except Panic Memory
  | 0, _, _ => throw .diverges
  | _ + 1, none, m => pure m
  | fuel + 1, some a, m =>
    s.pagesClear fuel (s.dsNext a) (fillBytes m (s.addr a) (s.size a) 0)

namespace Machine

/-- The byte of a dataspace at an offset. -/
def byte (w : Machine) (d : Dataspace) (offs : Nat) : Option UInt8 :=
  match w.server.st.findOffset w.server.st.listFuel (some d.pages) offs with
  | .ok (some (a, o)) => some (w.mem (Word.add (w.server.st.addr a) o))
  | _ => none

/-- `__create_ds` -/
def createDs (w : Machine) (owner : ThreadId) (pool addr size align flags : Nat) :
    Except Panic (Except Err Nat × Machine) := do
  let v := w.server
  let size := Word.roundUp size pageSize
  let align := Server.roundAlign align
  let s ← v.st.slabGrow
  let s ← s.slabGrow
  match v.findId with
  | none => pure (.error .enohandle, ⟨{ v with st := s.slabBack }, w.mem⟩)
  | some id => do
    let (pages, s) ← Server.allocate s pool addr size align flags
    match pages with
    | none => pure (.error .enomem, ⟨{ v with st := s.slabBacks 2, lastId := id }, w.mem⟩)
    | some pages => do
      let m ← s.pagesClear s.listFuel (some pages) w.mem
      let size ← s.pagesGetSize pages
      let s ← s.dmphysInternalAllocUpdate
      let d : Dataspace := ⟨id, owner, [], pool, pages, size, flags⟩
      pure (.ok id, ⟨{ v with st := s, dataspaces := d :: v.dataspaces, lastId := id }, m⟩)

/-- The loops of `__create_copy` that fill a part of the destination. -/
def fillLoop (s : State) (pages : Ptr) : Nat → Nat → Nat → Memory → Except Panic (Nat × Memory)
  | 0, _, _, _ => throw .diverges
  | fuel + 1, offs, fill, m =>
    if fill = 0 then pure (offs, m)
    else do
      match ← s.findOffset s.listFuel (some pages) offs with
      | none => throw .assertion
      | some (a, o) =>
        let addr := Word.add (s.addr a) o
        let n := min (Word.sub (s.size a) o) fill
        fillLoop s pages fuel (Word.add offs n) (Word.sub fill n) (fillBytes m addr n 0)

/-- The loop of `__create_copy` that copies from the source to the destination. -/
def copyLoop (s : State) (dst src : Ptr) :
    Nat → Nat → Nat → Nat → Memory → Except Panic (Nat × Memory)
  | 0, _, _, _, _ => throw .diverges
  | fuel + 1, dOffs, sOffs, num, m =>
    if num = 0 then pure (dOffs, m)
    else do
      match ← s.findOffset s.listFuel (some dst) dOffs, ← s.findOffset s.listFuel (some src) sOffs with
      | some (a, o), some (b, p) =>
        let dAddr := Word.add (s.addr a) o
        let sAddr := Word.add (s.addr b) p
        let n := min (min (Word.sub (s.size a) o) (Word.sub (s.size b) p)) num
        copyLoop s dst src fuel (Word.add dOffs n) (Word.add sOffs n) (Word.sub num n)
          (copyBytes m dAddr sAddr n)
      | _, _ => throw .assertion

/-- The loops of `__create_copy`. -/
def copyPages (s : State) (dst src : Ptr) (dstSize srcOffs dstOffs num : Nat) (m : Memory) :
    Except Panic Memory := do
  let fuel := 2 * s.listFuel + 1
  let (dOffs, m) ← if 0 < dstOffs then fillLoop s dst fuel 0 dstOffs m else pure (0, m)
  let (dOffs, m) ← copyLoop s dst src fuel dOffs srcOffs num m
  if dOffs < dstSize then do
    let (_, m) ← fillLoop s dst fuel dOffs (Word.sub dstSize dOffs) m
    pure m
  else pure m

/-- `__create_copy` -/
def createCopy (w : Machine) (src : Dataspace) (owner : ThreadId)
    (pool dstAddr dstSize dstAlign srcOffs dstOffs num flags : Nat) :
    Except Panic (Except Err Nat × Machine) := do
  let (r, w) ← w.createDs owner pool dstAddr dstSize dstAlign flags
  match r with
  | .error e => pure (.error e, w)
  | .ok id =>
    match w.server.get id with
    | none => throw .assertion
    | some dst => do
      let m ← copyPages w.server.st dst.pages src.pages dstSize srcOffs dstOffs num w.mem
      let s ← w.server.st.dmphysInternalAllocUpdate
      pure (.ok id, ⟨{ w.server with st := s }, m⟩)

/-- `if_l4dm_generic_copy_component` -/
def copy (w : Machine) (caller : ThreadId) (id srcOffs dstOffs num flags : Nat) :
    Except Panic (Except Err Nat × Machine) :=
  match w.server.getCheckClient id caller with
  | .error e => pure (.error e, w)
  | .ok d =>
    let pool := if samePool flags then d.pool else defaultPool
    if d.size ≤ srcOffs then pure (.error .einvalOffs, w)
    else
      let n := Server.numCopy d.size srcOffs num
      let dstSize := Word.roundUp (Word.add (if num = wholeDs then n else num) dstOffs) pageSize
      w.createCopy d caller pool anyAddr dstSize pageSize srcOffs dstOffs n flags

/-- `if_l4dm_memphys_dmphys_copy_component` -/
def dmphysCopy (w : Machine) (caller : ThreadId)
    (id srcOffs dstOffs num dstPool dstAddr dstSize dstAlign flags : Nat) :
    Except Panic (Except Err Nat × Machine) :=
  match w.server.getCheckClient id caller with
  | .error e => pure (.error e, w)
  | .ok d =>
    if samePool flags = false ∧ numPools ≤ dstPool then pure (.error .einval, w)
    else
      let pool := if samePool flags then d.pool else dstPool
      if d.size ≤ srcOffs then pure (.error .einvalOffs, w)
      else
        let n := Server.numCopy d.size srcOffs num
        w.createCopy d caller pool dstAddr (max dstSize (Word.add dstOffs n)) dstAlign srcOffs dstOffs
          n flags

end Machine

/-! ## The server alone -/

theorem State.pagesClear_eq (s : State) (fuel : Nat) (q : Option Ptr) (m : Memory) :
    s.pagesClear fuel q m = match s.pageList fuel q with
      | none => .error .diverges
      | some l => .ok (l.foldl (fun m a => fillBytes m (s.addr a) (s.size a) 0) m) := by
  induction fuel generalizing q m with
  | zero => rfl
  | succ fuel ih =>
    cases q with
    | none => rfl
    | some a =>
      simp only [State.pagesClear, State.pageList, ih]
      cases s.pageList fuel (s.dsNext a) <;> rfl

namespace Machine

/-- The results of a sequence of steps, part by part. -/
theorem map_bind {ε α β γ : Type} {r : Except ε α} {f : α → Except ε β} {g : β → γ}
    {f' : α → Except ε γ} (h : ∀ v, (f v).map g = f' v) : (r >>= f).map g = r >>= f' := by
  cases r with
  | error e => rfl
  | ok v => exact h v

theorem map_bind_map {ε α α' β γ : Type} {r : Except ε α} {r' : Except ε α'} {k : α → α'}
    {f : α → Except ε β} {g : β → γ} {f' : α' → Except ε γ} (hr : r.map k = r')
    (h : ∀ v, (f v).map g = f' (k v)) : (r >>= f).map g = r' >>= f' := by
  subst hr
  cases r with
  | error e => rfl
  | ok v => exact h v

/-- A result without the memory. -/
def forget {α : Type} (r : α × Machine) : α × Server := (r.1, r.2.server)

theorem createDs_server (w : Machine) (owner : ThreadId) (pool addr size align flags : Nat) :
    (w.createDs owner pool addr size align flags).map forget =
      w.server.createDs owner pool addr size align flags := by
  unfold createDs Server.createDs
  refine map_bind fun s₁ => map_bind fun s₂ => ?_
  cases w.server.findId with
  | none => rfl
  | some id =>
    refine map_bind fun ⟨o, s₃⟩ => ?_
    cases o with
    | none => rfl
    | some p =>
      simp only [State.pagesClear_eq, State.pagesGetSize]
      cases s₃.pageList s₃.listFuel (some p) with
      | none => rfl
      | some l =>
        simp only [ok_bind, pure_bind]
        exact map_bind fun s₄ => rfl

theorem fillLoop_fst (s : State) (p : Ptr) (fuel offs fill : Nat) (m : Memory) :
    (fillLoop s p fuel offs fill m).map Prod.fst = Server.fillLoop s p fuel offs fill := by
  induction fuel generalizing offs fill m with
  | zero => rfl
  | succ fuel ih =>
    unfold fillLoop Server.fillLoop
    split
    · rfl
    · refine map_bind fun r => ?_
      cases r with
      | none => rfl
      | some r => exact ih ..

theorem copyLoop_fst (s : State) (p q : Ptr) (fuel dOffs sOffs num : Nat) (m : Memory) :
    (copyLoop s p q fuel dOffs sOffs num m).map Prod.fst =
      Server.copyLoop s p q fuel dOffs sOffs num := by
  induction fuel generalizing dOffs sOffs num m with
  | zero => rfl
  | succ fuel ih =>
    unfold copyLoop Server.copyLoop
    split
    · rfl
    · refine map_bind fun r => map_bind fun r' => ?_
      cases r with
      | none => rfl
      | some r =>
        cases r' with
        | none => rfl
        | some r' => exact ih ..

theorem copyPages_isOk (s : State) (p q : Ptr) (dstSize srcOffs dstOffs num : Nat) (m : Memory) :
    (copyPages s p q dstSize srcOffs dstOffs num m).map (fun _ => ()) =
      Server.copyPages s p q dstSize srcOffs dstOffs num := by
  have hend : ∀ r : Nat × Memory, (do
      let (dOffs, m) ← copyLoop s p q (2 * s.listFuel + 1) r.1 srcOffs num r.2
      if dOffs < dstSize then do
        let (_, m) ← fillLoop s p (2 * s.listFuel + 1) dOffs (Word.sub dstSize dOffs) m
        pure m
      else pure m).map (fun _ => ()) = (do
      let dOffs ← Server.copyLoop s p q (2 * s.listFuel + 1) r.1 srcOffs num
      if dOffs < dstSize then do
        let _ ← Server.fillLoop s p (2 * s.listFuel + 1) dOffs (Word.sub dstSize dOffs)
        pure ()
      else pure ()) := by
    intro r
    refine map_bind_map (copyLoop_fst ..) fun r => ?_
    simp only
    split
    · exact map_bind_map (fillLoop_fst ..) fun _ => rfl
    · rfl
  unfold copyPages Server.copyPages
  simp only
  split
  · exact map_bind_map (fillLoop_fst ..) fun r => hend r
  · exact hend (0, m)

theorem createCopy_server (w : Machine) (src : Dataspace) (owner : ThreadId)
    (pool dstAddr dstSize dstAlign srcOffs dstOffs num flags : Nat) :
    (w.createCopy src owner pool dstAddr dstSize dstAlign srcOffs dstOffs num flags).map forget =
      w.server.createCopy src owner pool dstAddr dstSize dstAlign srcOffs dstOffs num flags := by
  unfold createCopy Server.createCopy
  refine map_bind_map (k := forget) (createDs_server ..) fun ⟨r, w'⟩ => ?_
  cases r with
  | error e => rfl
  | ok id =>
    simp only [forget]
    cases w'.server.get id with
    | none => rfl
    | some dst =>
      exact map_bind_map (k := fun _ => ()) (copyPages_isOk ..) fun m => map_bind fun s => rfl

end Machine

/-! ## Lists of areas as buffers -/

/-- The pieces of memory of a list of areas. -/
def State.pieces (s : State) (c : List Ptr) : List (Nat × Nat) := c.map fun a => (s.addr a, s.size a)

/-- The areas `c` of a page list, which lie apart in memory. -/
structure PageList (s : State) (p : Ptr) (c : List Ptr) : Prop where
  links : IsSList s.dsNext (some p) c
  length : c.length < s.listFuel
  total : s.total c < 4294967296
  bound : ∀ a ∈ c, s.addr a + s.size a < 4294967296
  disjoint : (s.pieces c).Pairwise fun r r' => r.1 + r.2 ≤ r'.1 ∨ r'.1 + r'.2 ≤ r.1

section
variable {s s' : State} {A A' : Nat → Set Ptr} {c c' : List Ptr} {p q a : Ptr} {m m' : Memory}
  {offs o k fuel : Nat} {K : Ptr → Prop}

@[simp] theorem State.pieces_append {c₁ c₂ : List Ptr} :
    s.pieces (c₁ ++ c₂) = s.pieces c₁ ++ s.pieces c₂ := List.map_append

@[simp] theorem State.pieces_cons : s.pieces (a :: c) = (s.addr a, s.size a) :: s.pieces c := rfl

@[simp] theorem State.extent_pieces : extent (s.pieces c) = s.total c := by
  simp [extent, State.pieces, State.total, Function.comp_def]

theorem Frame.pieces (h : Frame s A s' A' K) (hc : ∀ a ∈ c, K a) : s'.pieces c = s.pieces c :=
  List.map_congr_left fun a ha => by rw [h.addr a (hc a ha), h.size a (hc a ha)]

theorem Chain.pageList {H : List Ptr} {P : Nat} (C : Chain s A H P (some p) c) : PageList s p c := by
  refine ⟨C.links, C.length_lt, C.total_lt, fun a ha => (C.inv.area.range (C.mem a ha)).bound, ?_⟩
  unfold State.pieces
  rw [List.pairwise_map]
  exact C.nodup.imp_of_mem fun ha hb hab => C.inv.area.apart (C.mem _ ha) (C.mem _ hb) hab

theorem Holds.pageList {l : List Held} {x : Held} (h : Holds s A l) (hx : x ∈ l) :
    PageList s x.pages x.areas := by
  obtain ⟨H, C⟩ := h.chain_of_mem hx
  exact C.pageList

namespace PageList

theorem inj (h : PageList s p c) {i j : Nat} (hi : i < s.total c) (hj : j < s.total c)
    (he : locate (s.pieces c) i = locate (s.pieces c) j) : i = j :=
  locate_inj h.disjoint (by simpa using hi) (by simpa using hj) he

/-- The area that holds a byte, the pieces from there on, and the progress that its end makes. -/
theorem findOffset_some (h : PageList s p c) (hlt : offs < s.total c) :
    ∃ a o, s.findOffset s.listFuel (some p) offs = .ok (some (a, o)) ∧ o < s.size a ∧
      Word.sub (s.size a) o = s.size a - o ∧ Word.add (s.addr a) o = s.addr a + o ∧
      offs + (s.size a - o) ≤ s.total c ∧
      s.behind c (offs + (s.size a - o)) < s.behind c offs ∧
      ∀ k < s.size a - o, locate (s.pieces c) (offs + k) = s.addr a + o + k := by
  obtain ⟨a, o, he, ho, hsub, hle, hlt'⟩ := IsSList.findOffset_some h.links h.length hlt h.total
  refine ⟨a, o, he, ho, hsub, ?_⟩
  rcases IsSList.findOffset_eq h.links h.length offs with ⟨h0, -⟩ | ⟨c₁, x, c₂, o', hc, he', ht, -⟩
  · rw [he] at h0
    cases h0
  · rw [he] at he'
    cases he'
    have hb := h.bound a (by simp [hc])
    refine ⟨Word.add_eq (by omega), hle, hlt', fun k hk => ?_⟩
    subst hc ht
    have := locate_append (s.pieces c₁) (s.addr a, s.size a) (s.pieces c₂)
      (j := o + k) (by simp only; omega)
    rw [State.extent_pieces] at this
    rw [State.pieces_append, State.pieces_cons, Nat.add_assoc, this]
    omega

theorem findOffset_none (h : PageList s p c) (hle : s.total c ≤ offs) :
    s.findOffset s.listFuel (some p) offs = .ok none := by
  rcases IsSList.findOffset_eq h.links h.length offs with ⟨h0, -⟩ | ⟨c₁, x, c₂, o, rfl, -, ht, ho⟩
  · exact h0
  · simp only [State.total, List.map_append, List.map_cons, List.sum_append, List.sum_cons] at *
    omega

theorem behind_lt (h : PageList s p c) (offs : Nat) : s.behind c offs < s.listFuel := State.behind_le_length.trans_lt h.length

/-- `dmphys_pages_clear` -/
theorem pagesClear (h : PageList s p c) : ∃ m', s.pagesClear s.listFuel (some p) m = .ok m' ∧
    Writes (locate (s.pieces c)) 0 (s.total c) (fun _ => 0) m m' := by
  refine ⟨_, by rw [State.pagesClear_eq, IsSList.pageList_eq h.links h.length], ?_⟩
  -- the areas that are cleared, and those that are not
  have hfold : ∀ (c : List Ptr) (m : Memory) (x : Nat),
      ((∃ r ∈ s.pieces c, r.1 ≤ x ∧ x < r.1 + r.2) →
        c.foldl (fun m a => fillBytes m (s.addr a) (s.size a) 0) m x = 0) ∧
      ((∀ r ∈ s.pieces c, ¬(r.1 ≤ x ∧ x < r.1 + r.2)) →
        c.foldl (fun m a => fillBytes m (s.addr a) (s.size a) 0) m x = m x) := by
    intro c
    induction c with
    | nil => exact fun m x => ⟨fun ⟨_, hr, _⟩ => absurd hr List.not_mem_nil, fun _ => rfl⟩
    | cons a c ih =>
      intro m x
      obtain ⟨ih1, ih2⟩ := ih (fillBytes m (s.addr a) (s.size a) 0) x
      simp only [State.pieces_cons, List.mem_cons, exists_eq_or_imp, forall_eq_or_imp,
        List.foldl_cons]
      refine ⟨fun hx => ?_, fun ⟨hx, hc⟩ => (ih2 hc).trans (if_neg hx)⟩
      by_cases hc : ∃ r ∈ s.pieces c, r.1 ≤ x ∧ x < r.1 + r.2
      · exact ih1 hc
      · rw [ih2 fun r hr hin => hc ⟨r, hr, hin⟩]
        exact if_pos (hx.resolve_right hc)
  refine ⟨fun i hi => (hfold c m _).1 ?_, fun x hx => (hfold c m x).2 fun r hr hin => ?_⟩
  · obtain ⟨r, hr, hin⟩ := locate_mem (l := s.pieces c) (i := 0 + i) (by simpa using hi)
    exact ⟨r, hr, hin⟩
  · obtain ⟨l₁, l₂, hl⟩ := List.append_of_mem hr
    have hloc := locate_append l₁ r l₂ (j := x - r.1) (by omega)
    have hext := State.extent_pieces (s := s) (c := c)
    rw [hl] at hext
    simp only [extent, List.map_append, List.map_cons, List.sum_append, List.sum_cons] at hext
    refine hx (extent l₁ + (x - r.1)) ?_ ?_
    · unfold extent
      omega
    · rw [Nat.zero_add, hl, hloc]
      omega

/-- Filling a part of a list clears its bytes. -/
theorem fillLoop_ok (h : PageList s p c) (offs fill fuel : Nat) (hfill : offs + fill ≤ s.total c)
    (hfuel : s.behind c offs < fuel) :
    ∃ m', Machine.fillLoop s p fuel offs fill m = .ok (offs + fill, m') ∧
      Writes (locate (s.pieces c)) offs fill (fun _ => 0) m m' := by
  induction fuel generalizing offs fill m with
  | zero => omega
  | succ fuel ih =>
    unfold Machine.fillLoop
    split
    next h0 => exact ⟨m, by rw [h0]; rfl, h0 ▸ .refl⟩
    next h0 =>
      obtain ⟨a, o, he, ho, hsub, hadd, hle, hlt, hloc⟩ := h.findOffset_some (show offs < s.total c by omega)
      simp only [he, ok_bind, hsub, hadd]
      generalize hn : min (s.size a - o) fill = n
      have hw := writes_fillBytes (m := m) (b := (0 : UInt8)) fun k (hk : k < n) => hloc k (by omega)
      have htot := h.total
      rw [Word.add_eq (by omega), Word.sub_eq (by omega) (by omega)]
      have hinj : ∀ x < n + (fill - n), ∀ y < n + (fill - n), locate (s.pieces c) (offs + x) =
          locate (s.pieces c) (offs + y) → x = y := fun x hx y hy he => by
        have := h.inj (by omega) (by omega) he
        omega
      rcases (by omega : n = s.size a - o ∨ n = fill) with hna | hna
      · obtain ⟨m', hm', hw'⟩ := ih (offs + n) (fill - n)
          (m := fillBytes m (s.addr a + o) n 0) (by omega) (by rw [hna]; omega)
        refine ⟨m', by rw [hm']; congr 2; omega, ?_⟩
        have := hw.trans hw' hinj
        rwa [show n + (fill - n) = fill by omega] at this
      · -- the last piece
        subst hna
        rw [Nat.sub_self]
        refine ⟨_, ?_, hw⟩
        cases fuel with
        | zero => omega
        | succ fuel => rfl

/-- Filling beyond the end of a list runs into the assertion. -/
theorem fillLoop_fails (h : PageList s p c) {fill : Nat} (hle : offs ≤ s.total c)
    (hfill : s.total c < offs + fill) (hw : fill < 4294967296) (hfuel : s.behind c offs < fuel) :
    Machine.fillLoop s p fuel offs fill m = .error .assertion := by
  induction fuel generalizing offs fill m with
  | zero => omega
  | succ fuel ih =>
    unfold Machine.fillLoop
    rw [if_neg (by omega)]
    rcases Nat.lt_or_ge offs (s.total c) with hlt | hge
    · obtain ⟨a, o, he, ho, hsub, -, hle', hb, -⟩ := h.findOffset_some hlt
      have htot := h.total
      simp only [he, ok_bind, hsub]
      rw [show min (s.size a - o) fill = s.size a - o by omega, Word.add_eq (by omega),
        Word.sub_eq (by omega) (by omega)]
      exact ih hle' (by omega) (by omega) (by omega)
    · rw [h.findOffset_none hge]
      rfl

/-- Copying between lists that share no byte. -/
theorem copyLoop_ok (h : PageList s p c) (h' : PageList s q c')
    (hsep : ∀ i < s.total c, ∀ j < s.total c', locate (s.pieces c) i ≠ locate (s.pieces c') j)
    (offs sOffs num fuel : Nat) (hnum : offs + num ≤ s.total c) (hnum' : sOffs + num ≤ s.total c')
    (hfuel : s.behind c offs + s.behind c' sOffs < fuel) :
    ∃ m', Machine.copyLoop s p q fuel offs sOffs num m = .ok (offs + num, m') ∧
      Writes (locate (s.pieces c)) offs num (fun k => m (locate (s.pieces c') (sOffs + k))) m m' := by
  induction fuel generalizing offs sOffs num m with
  | zero => omega
  | succ fuel ih =>
    unfold Machine.copyLoop
    split
    next h0 => exact ⟨m, by rw [h0]; rfl, h0 ▸ .refl⟩
    next h0 =>
      obtain ⟨a, o, he, ho, hsub, hadd, hle, hlt, hloc⟩ := h.findOffset_some (show offs < s.total c by omega)
      obtain ⟨b, r, he', hr, hsub', hadd', hle', hlt', hloc'⟩ :=
        h'.findOffset_some (show sOffs < s.total c' by omega)
      simp only [he, he', ok_bind, hsub, hsub', hadd, hadd']
      generalize hn : min (min (s.size a - o) (s.size b - r)) num = n
      have hw := writes_copyBytes (m := m) (fun k (hk : k < n) => hloc k (by omega))
        fun k hk => hloc' k (by omega)
      have htot := h.total
      have htot' := h'.total
      rw [Word.add_eq (by omega), Word.add_eq (by omega), Word.sub_eq (by omega) (by omega)]
      have h1 := @State.behind_mono s c offs (offs + n) (by omega)
      have h2 := @State.behind_mono s c' sOffs (sOffs + n) (by omega)
      rcases (by omega : n = s.size a - o ∨ n = s.size b - r ∨ n = num) with hna | hna | hna
      case inr.inr =>
        -- the last piece
        subst hna
        rw [Nat.sub_self]
        refine ⟨_, ?_, hw⟩
        cases fuel with
        | zero => omega
        | succ fuel => rfl
      -- one of the two areas is used up
      all_goals
        obtain ⟨m', hm', hw'⟩ := ih (offs + n) (sOffs + n) (num - n)
          (m := copyBytes m (s.addr a + o) (s.addr b + r) n) (by omega) (by omega)
          (by rw [hna] at h1 h2 ⊢; omega)
        refine ⟨m', by rw [hm']; congr 2; omega, ?_⟩
        have hcongr := hw'.congr (w := fun k => m (locate (s.pieces c') (sOffs + (n + k))))
          fun k hk => by
            rw [Nat.add_assoc]
            exact hw.other fun x hx => hsep _ (by omega) _ (by omega)
        have := hw.trans hcongr fun x hx y hy he => by
          have := h.inj (by omega) (by omega) he
          omega
        rwa [show n + (num - n) = num by omega] at this

/-- Copying beyond the end of the destination runs into the assertion. -/
theorem copyLoop_fails (h : PageList s p c) (h' : PageList s q c') {sOffs num : Nat}
    (hle : offs ≤ s.total c) (hnum : s.total c < offs + num) (hnum' : sOffs + num ≤ s.total c')
    (hfuel : s.behind c offs + s.behind c' sOffs < fuel) :
    Machine.copyLoop s p q fuel offs sOffs num m = .error .assertion := by
  induction fuel generalizing offs sOffs num m with
  | zero => omega
  | succ fuel ih =>
    unfold Machine.copyLoop
    rw [if_neg (by omega)]
    obtain ⟨b, r, he', hr, hsub', -, hle', hlt', -⟩ := h'.findOffset_some (show sOffs < s.total c' by omega)
    rcases Nat.lt_or_ge offs (s.total c) with hlt | hge
    · obtain ⟨a, o, he, ho, hsub, -, hle₁, hlt₁, -⟩ := h.findOffset_some hlt
      have htot := h.total
      have htot' := h'.total
      simp only [he, he', ok_bind, hsub, hsub']
      rw [show min (min (s.size a - o) (s.size b - r)) num = min (s.size a - o) (s.size b - r) by omega]
      generalize hn : min (s.size a - o) (s.size b - r) = n
      rw [Word.add_eq (by omega), Word.add_eq (by omega), Word.sub_eq (by omega) (by omega)]
      have h1 := @State.behind_mono s c offs (offs + n) (by omega)
      have h2 := @State.behind_mono s c' sOffs (sOffs + n) (by omega)
      refine ih (by omega) (by omega) (by omega) ?_
      rcases (by omega : n = s.size a - o ∨ n = s.size b - r) with hna | hna
      all_goals
        rw [hna] at h1 h2 ⊢
        omega
    · rw [h.findOffset_none hge, he']
      rfl

/-- What a copy with these arguments leaves in the destination. -/
def copied (m : Memory) (src : Nat → Nat) (srcOffs dstOffs num i : Nat) : UInt8 :=
  if dstOffs ≤ i ∧ i < dstOffs + num then m (src (srcOffs + (i - dstOffs))) else 0

/-- The loops of `__create_copy`, when the copied part is inside the destination. -/
theorem copyPages_ok (h : PageList s p c) (h' : PageList s q c')
    (hsep : ∀ i < s.total c, ∀ j < s.total c', locate (s.pieces c) i ≠ locate (s.pieces c') j)
    {dstSize srcOffs dstOffs num : Nat} (hdst : dstOffs + num ≤ s.total c)
    (hsize : dstSize ≤ s.total c) (hsrc : srcOffs + num ≤ s.total c') :
    ∃ m', Machine.copyPages s p q dstSize srcOffs dstOffs num m = .ok m' ∧
      Writes (locate (s.pieces c)) 0 (max dstSize (dstOffs + num))
        (copied m (locate (s.pieces c')) srcOffs dstOffs num) m m' := by
  have hb := fun o => h.behind_lt o
  have hb' := fun o => h'.behind_lt o
  have hinj : ∀ i n, i + n ≤ s.total c → ∀ x < n, ∀ y < n, locate (s.pieces c) (i + x) =
      locate (s.pieces c) (i + y) → x = y := fun i n hn x hx y hy he => by
    have := h.inj (by omega) (by omega) he
    omega
  obtain ⟨m₁, e₁, w₁⟩ := h.fillLoop_ok 0 dstOffs (2 * s.listFuel + 1)
    (m := m) (by omega) (by have := hb 0; omega)
  obtain ⟨m₂, e₂, w₂⟩ := h.copyLoop_ok h' hsep dstOffs srcOffs num
    (2 * s.listFuel + 1) (m := m₁) hdst hsrc (by have := hb dstOffs; have := hb' srcOffs; omega)
  have w₁₂ : Writes (locate (s.pieces c)) 0 (dstOffs + num)
      (copied m (locate (s.pieces c')) srcOffs dstOffs num) m m₂ := by
    have w₁ := w₁.congr (w := copied m (locate (s.pieces c')) srcOffs dstOffs num) fun k hk =>
      (if_neg (by omega)).symm
    refine w₁.trans (Nat.zero_add _ ▸ w₂.congr fun k hk => ?_) (hinj 0 _ (by omega))
    have hk' : dstOffs ≤ dstOffs + k ∧ dstOffs + k < dstOffs + num := by omega
    unfold copied
    rw [if_pos hk', Nat.add_sub_cancel_left]
    exact w₁.other fun x hx => hsep _ (by omega) _ (by omega)
  have hrun : Machine.copyPages s p q dstSize srcOffs dstOffs num m = (do
      if dstOffs + num < dstSize then do
        let (_, m) ← Machine.fillLoop s p (2 * s.listFuel + 1) (dstOffs + num)
          (Word.sub dstSize (dstOffs + num)) m₂
        pure m
      else pure m₂) := by
    unfold Machine.copyPages
    simp only
    split
    · rw [e₁, Nat.zero_add]
      simp only [ok_bind, e₂]
    next h0 =>
      obtain rfl := Nat.eq_zero_of_not_pos h0
      obtain rfl : m₁ = m := funext fun x => w₁.frame x fun k hk => absurd hk (Nat.not_lt_zero k)
      simp only [pure_bind, e₂, ok_bind]
  rw [hrun]
  have htot := h.total
  by_cases hlt : dstOffs + num < dstSize
  · rw [if_pos hlt, Word.sub_eq (by omega) (by omega), max_eq_left hlt.le]
    obtain ⟨m₃, e₃, w₃⟩ := h.fillLoop_ok (dstOffs + num) (dstSize - (dstOffs + num))
      (2 * s.listFuel + 1) (m := m₂) (by omega) (by have := hb (dstOffs + num); omega)
    rw [e₃]
    refine ⟨m₃, rfl, ?_⟩
    have w₃ := w₃.congr (w := fun k => copied m (locate (s.pieces c')) srcOffs dstOffs num
      (dstOffs + num + k)) fun k hk => (if_neg (by omega)).symm
    have := w₁₂.trans (k := dstSize - (dstOffs + num)) (by rwa [Nat.zero_add])
      (hinj 0 _ (by omega))
    rwa [show dstOffs + num + (dstSize - (dstOffs + num)) = dstSize by omega] at this
  · rw [if_neg hlt, max_eq_right (by omega)]
    exact ⟨m₂, rfl, w₁₂⟩

/-- The loops of `__create_copy`, when the copied part ends behind the destination. -/
theorem copyPages_fails (h : PageList s p c) (h' : PageList s q c')
    {dstSize srcOffs dstOffs num : Nat} (hw : dstOffs < 4294967296)
    (hdst : s.total c < dstOffs + num) (hsrc : srcOffs + num ≤ s.total c') :
    Machine.copyPages s p q dstSize srcOffs dstOffs num m = .error .assertion := by
  have hb := fun o => h.behind_lt o
  have hb' := h'.behind_lt srcOffs
  have hcopy : dstOffs ≤ s.total c → ∀ m, Machine.copyLoop s p q (2 * s.listFuel + 1) dstOffs srcOffs
      num m = .error .assertion := fun hle m =>
    h.copyLoop_fails h' hle hdst hsrc (by have := hb dstOffs; omega)
  unfold Machine.copyPages
  simp only
  split
  · rcases Nat.lt_or_ge (s.total c) dstOffs with hlt | hge
    · rw [h.fillLoop_fails (Nat.zero_le _) (by omega) hw (by have := hb 0; omega)]
      rfl
    · obtain ⟨m₁, e₁, -⟩ := h.fillLoop_ok 0 dstOffs (2 * s.listFuel + 1)
        (m := m) (by omega) (by have := hb 0; omega)
      rw [e₁, Nat.zero_add]
      simp only [ok_bind]
      rw [hcopy hge]
      rfl
  next h0 =>
    obtain rfl := Nat.eq_zero_of_not_pos h0
    simp only [pure_bind]
    rw [hcopy (Nat.zero_le _)]
    rfl

end PageList

end

end L4env.DMphys
