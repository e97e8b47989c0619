import L4env.Fiasco.MapPages

/-!
# Saving access attributes

The referenced and dirty bits that `unmap` takes from page-table entries go to the entry of the flushed space,
or to the one of the parent's space when the space itself is flushed. The first always accepts them. The
second is looked for with the page size of the treemap the mapping is in; so it accepts them only if the
parent's page has that size.
-/

namespace L4env.Fiasco

open Config

namespace MapM

variable {α β : Type} {a a' : Answers}

theorem bind_ok {x : MapM α} {f : α → MapM β} {b : β} :
    (x >>= f) a = .ok (b, a') ↔ ∃ c a₁, x a = .ok (c, a₁) ∧ f c a₁ = .ok (b, a') := by
  change Except.bind _ _ = _ ↔ _
  cases hx : x a with
  | error e => simp [Except.bind]
  | ok r =>
    constructor
    · exact fun h => ⟨r.1, r.2, rfl, h⟩
    · rintro ⟨c, a₁, heq, h⟩
      cases heq
      exact h

theorem pure_ok {x b : α} : (pure x : MapM α) a = .ok (b, a') ↔ x = b ∧ a = a' := by
  change Except.ok (x, a) = _ ↔ _
  simp

theorem throw_ok {e : MapFault} {b : α} : ¬ (throw e : MapM α) a = .ok (b, a') := nofun

theorem liftMem_ok {x : Except MemFault α} {b : α} (h : liftMem x a = .ok (b, a')) : x = .ok b := by
  cases x with
  | error e => cases h
  | ok c => exact congrArg _ (pure_ok.mp h).1

end MapM

/-! ## Slots -/

theorem two_pow_dvd_roundDown {k : Nat} (v : Nat) (hk : k < 32) : 2 ^ k ∣ Word.roundDown v (2 ^ k) := by
  have hmask : Word.mask (2 ^ k) % 2 ^ k = 0 := by
    rw [Word.mask_two_pow hk]
    exact Nat.mul_mod_left ..
  apply Nat.dvd_of_mod_eq_zero
  rw [Word.roundDown, Nat.and_mod_two_pow, hmask, Nat.and_zero]

theorem dvd_roundDown_of_valid {size : Nat} (v : Nat) (h : size = pageSize ∨ size = Config.superpageSize) :
    size ∣ Word.roundDown v size := by
  rcases h with rfl | rfl
  · exact two_pow_dvd_roundDown (k := 12) v (by decide)
  · exact two_pow_dvd_roundDown (k := 22) v (by decide)

namespace MemSpace

variable {s : MemSpace} {virt phys size : Nat} {a : PageAttribs}

theorem vLookup_dvd (h : s.vLookup virt = .page phys size a) : size ∣ phys := by
  unfold vLookup at h
  split at h
  · cases h
  · cases h
    exact Nat.dvd_mul_left ..
  · split at h
    · cases h
    · cases h
      exact Nat.dvd_mul_left ..

theorem vLookup_free (h : s.vLookup virt = .free size) : size = pageSize ∨ size = Config.superpageSize := by
  unfold vLookup at h
  split at h
  · exact .inr (Slot.free.inj h).symm
  · cases h
  · split at h
    · exact .inl (Slot.free.inj h).symm
    · cases h

/-- A page is found at its address too. -/
theorem vLookup_pageAddress (hv : virt < 4294967296) (h : s.vLookup virt = .page phys size a) :
    s.vLookup (Word.roundDown virt size) = .page phys size a := by
  unfold vLookup at h ⊢
  cases hd : s.dir (pdIndex virt) with
  | invalid =>
    rw [hd] at h
    cases h
  | superpage e =>
    rw [hd] at h
    obtain ⟨-, rfl, -⟩ := Slot.page.inj h
    have hround : Word.roundDown virt Config.superpageSize = virt / Config.superpageSize * Config.superpageSize :=
      Word.roundDown_two_pow (k := 22) hv (by decide)
    have hi : pdIndex (Word.roundDown virt Config.superpageSize) = pdIndex virt := by
      rw [hround, pdIndex, Nat.mul_div_cancel _ (by decide), pdIndex]
    rw [hi, hd]
    exact h
  | ptab entries =>
    rw [hd] at h
    dsimp only at h
    split at h
    · cases h
    next e he =>
      obtain ⟨-, rfl, -⟩ := Slot.page.inj h
      have hround : Word.roundDown virt pageSize = virt / pageSize * pageSize :=
        Word.roundDown_two_pow (k := 12) hv (by decide)
      have hj : ptIndex (Word.roundDown virt pageSize) = ptIndex virt := by
        rw [hround, ptIndex, Nat.mul_div_cancel _ (by decide), ptIndex]
      have hi : pdIndex (Word.roundDown virt pageSize) = pdIndex virt := by
        rw [hround]
        simp only [pdIndex, pageSize, Config.superpageSize]
        omega
      rw [hi, hd, hj]
      simpa only [he] using h

end MemSpace

/-- The slots of a space have one of the two sizes. -/
def Slot.Valid : Slot → Prop
  | .page _ n _ | .free n => n = pageSize ∨ n = Config.superpageSize

theorem pageAt_valid (space : Nat) (s : MemSpace) (address : Nat) : (pageAt space s address).Valid := by
  unfold pageAt
  split
  · exact .inr rfl
  · cases h : s.vLookup address with
    | free n => exact MemSpace.vLookup_free h
    | page phys n a => exact MemSpace.valid_of_accepts (MemSpace.accepts_self h)

/-! ## Calls of `save_access_attribs` -/

namespace Saving

/-- The attributes are in the entry afterwards, and the assertion on the status holds. -/
def RecordedBy (sv : Saving) : Except MemFault (InsertStatus × MemSpace) → Prop
  | .ok (status, s') =>
    (status.Accepted ∨ sv.target = sigma0Task) ∧ (s'.vLookup sv.virt).Carries sv.attribs
  | .error _ => False

instance (sv : Saving) : DecidablePred sv.RecordedBy
  | .ok (status, s') => inferInstanceAs (Decidable ((status.Accepted ∨ sv.target = sigma0Task) ∧
      (s'.vLookup sv.virt).Carries sv.attribs))
  | .error _ => .isFalse id

def Recorded (sv : Saving) : Prop := sv.RecordedBy sv.insertion

instance : DecidablePred Recorded := fun sv => inferInstanceAs (Decidable (sv.RecordedBy sv.insertion))

/-- The slot of the space holds the page frame as a page of the size, or it is free for one. -/
def Fits (sv : Saving) : Prop :=
  (sv.space.vLookup sv.virt).Accepts sv.granted sv.phys sv.size

/-- The page tables of sigma0 need not agree with the mapping database, but the attributes may be there. -/
def Forgiven (sv : Saving) : Prop :=
  sv.target = sigma0Task ∧ (sv.size = pageSize ∨ sv.size = Config.superpageSize) ∧
    (sv.space.vLookup sv.virt).Carries sv.attribs

/-- What is known of a call that `unmap` makes. -/
structure Made (sv : Saving) : Prop where
  attribs : sv.attribs &&& PageAttribs.all = sv.attribs
  aligned : sv.size = pageSize ∨ sv.size = Config.superpageSize → sv.size ∣ sv.virt ∧ sv.size ∣ sv.phys
  own : sv.own = true → sv.target ≠ sigma0Task → (sv.space.vLookup sv.virt).Accepts false sv.phys sv.size

variable {sv : Saving}

theorem recorded_iff_exists : sv.Recorded ↔ ∃ status s', sv.insertion = .ok (status, s') ∧
    (status.Accepted ∨ sv.target = sigma0Task) ∧ (s'.vLookup sv.virt).Carries sv.attribs := by
  unfold Recorded
  cases hins : sv.insertion with
  | error e =>
    constructor
    · exact False.elim
    · rintro ⟨_, _, heq, -⟩
      cases heq
  | ok r =>
    constructor
    · exact fun h => ⟨r.1, r.2, rfl, h⟩
    · rintro ⟨status, s', heq, h⟩
      cases heq
      exact h

theorem insertion_valid {r : InsertStatus × MemSpace} (h : sv.insertion = .ok r) :
    sv.size = pageSize ∨ sv.size = Config.superpageSize := by
  unfold insertion MemSpace.vInsert at h
  dsimp only at h
  split at h
  · cases h
  · omega

theorem Made.recorded_iff (hm : sv.Made) :
    sv.Recorded ↔ sv.own = true ∧ sv.target ≠ sigma0Task ∨ sv.Fits ∨ sv.Forgiven := by
  have hfits : sv.own = true ∧ sv.target ≠ sigma0Task → sv.Fits := fun h =>
    MemSpace.accepts_of_free _ (hm.own h.1 h.2)
  constructor
  · intro h
    obtain ⟨status, s', hins, hstatus, hcarries⟩ := recorded_iff_exists.mp h
    have hsize := insertion_valid hins
    obtain ⟨status', s'', hins', hacc, -, hsame⟩ := sv.space.vInsert_spec sv.granted hsize
      (hm.aligned hsize).1 (hm.aligned hsize).2 hm.attribs
    cases hins.symm.trans hins'
    by_cases hst : status.Accepted
    · exact .inr (.inl (hacc.mp hst))
    · rw [hsame hst] at hcarries
      exact .inr (.inr ⟨hstatus.resolve_left hst, hsize, hcarries⟩)
  · intro h
    have hcase : sv.Fits ∨ sv.Forgiven := h.elim (.inl ∘ hfits) id
    have hsize : sv.size = pageSize ∨ sv.size = Config.superpageSize :=
      hcase.elim MemSpace.valid_of_accepts fun hf => hf.2.1
    obtain ⟨status, s', hins, hacc, hcarries, hsame⟩ := sv.space.vInsert_spec sv.granted hsize
      (hm.aligned hsize).1 (hm.aligned hsize).2 hm.attribs
    by_cases hst : status.Accepted
    · exact recorded_iff_exists.mpr ⟨status, s', hins, .inl hst, hcarries hst⟩
    · have hf : sv.Forgiven := hcase.resolve_left fun hfit => hst (hacc.mpr hfit)
      refine recorded_iff_exists.mpr ⟨status, s', hins, .inr hf.1, ?_⟩
      rw [hsame hst]
      exact hf.2.2

end Saving

namespace PageFlush

variable {n : Nat}

/-- The access bits that were removed from page tables are recorded. -/
def Saved (p : PageFlush n) : Prop :=
  accessed p.removed = 0 ∨ ∃ sv ∈ p.saving, sv.attribs = accessed p.removed ∧ sv.Recorded

instance (p : PageFlush n) : Decidable p.Saved :=
  inferInstanceAs (Decidable (accessed p.removed = 0 ∨
    ∃ sv ∈ p.saving, sv.attribs = accessed p.removed ∧ sv.Recorded))

/-- No access bits were removed, or they go to an entry of the flushed space, or to one they fit in. -/
def Fits (p : PageFlush n) : Prop :=
  accessed p.removed = 0 ∨
    ∃ sv ∈ p.saving, sv.own = true ∧ sv.target ≠ sigma0Task ∨ sv.Fits ∨ sv.Forgiven

end PageFlush

/-- The space of the task, if it has one, accepts the page frame at the address. -/
def OwnAccepts (spaces : Nat → Option MemSpace) (space virt phys size : Nat) : Prop :=
  ∀ s, spaces space = some s → (s.vLookup virt).Accepts false phys size

section

variable {spaces spaces' : Nat → Option MemSpace} {space virt phys size : Nat} {a a' : Answers}

theorem accessed_and_all (rights : PageAttribs) : accessed rights &&& PageAttribs.all = accessed rights := by
  rw [accessed, BitVec.and_assoc]
  rfl

/-- The page of the parent is aligned, whatever the treemap. -/
theorem parent_aligned (page phys : Nat) (h : size = pageSize ∨ size = Config.superpageSize) :
    size ∣ page * size % 4294967296 ∧ size ∣ Word.roundDown phys size := by
  refine ⟨?_, dvd_roundDown_of_valid phys h⟩
  rcases h with rfl | rfl
  · exact (Nat.dvd_mod_iff (by decide)).mpr (Nat.dvd_mul_left ..)
  · exact (Nat.dvd_mod_iff (by decide)).mpr (Nat.dvd_mul_left ..)

/-- A call for the removed attributes, if they have access bits. -/
def MadeFor (removed : PageAttribs) (saving : Option Saving) : Prop :=
  ∀ sv ∈ saving, sv.Made ∧ sv.attribs = accessed removed

theorem saveAccessAttribs_made {frame : Frame} {rights : PageAttribs} {meToo : Bool} {saving : Option Saving}
    (h : saveAccessAttribs spaces frame space rights virt phys size meToo a = .ok (saving, a'))
    (hown : space ≠ sigma0Task → OwnAccepts spaces space virt phys size)
    (haligned : size ∣ virt ∧ size ∣ phys) : MadeFor rights saving := by
  unfold saveAccessAttribs at h
  split at h
  · cases (MapM.pure_ok.mp h).1
    exact fun sv hs => nomatch hs
  obtain ⟨b, a₁, -, h⟩ := MapM.bind_ok.mp h
  cases hp : frame.cachingParent meToo with
  | some parent =>
    rw [hp] at h
    dsimp only at h
    cases hs : spaces parent.space with
    | none => exact absurd (hs ▸ h) MapM.throw_ok
    | some s =>
      rw [hs] at h
      cases (MapM.pure_ok.mp h).1
      rintro _ ⟨⟩
      exact ⟨⟨accessed_and_all _, parent_aligned _ _, nofun⟩, rfl⟩
  | none =>
    rw [hp] at h
    dsimp only at h
    cases hs : spaces space with
    | none => exact absurd (hs ▸ h) MapM.throw_ok
    | some s =>
      rw [hs] at h
      cases (MapM.pure_ok.mp h).1
      rintro _ ⟨⟩
      exact ⟨⟨accessed_and_all _, fun _ => haligned, fun _ hne => hown hne s hs⟩, rfl⟩

theorem deleteVisited_accepts {flushMode rights : PageAttribs} {vs : List Visited}
    (h : deleteVisited flushMode vs spaces a = .ok ((rights, spaces'), a'))
    (hown : OwnAccepts spaces space virt phys size) : OwnAccepts spaces' space virt phys size := by
  induction vs generalizing spaces a a' rights with
  | nil =>
    cases (MapM.pure_ok.mp h).1
    exact hown
  | cons v vs ih =>
    unfold deleteVisited at h
    cases hs : spaces v.space with
    | none => exact absurd (hs ▸ h) MapM.throw_ok
    | some s =>
      rw [hs] at h
      obtain ⟨⟨r, s'⟩, a₁, hdel, h⟩ := MapM.bind_ok.mp h
      obtain ⟨⟨r', spaces''⟩, a₂, hrest, h⟩ := MapM.bind_ok.mp h
      cases (MapM.pure_ok.mp h).1
      refine ih hrest fun t ht => ?_
      by_cases heq : space = v.space
      · subst heq
        rw [Function.update_self] at ht
        cases ht
        exact MemSpace.vDelete_accepts (hown s hs) (MapM.liftMem_ok hdel)
      · rw [Function.update_of_ne heq] at ht
        exact hown t ht

/-- What is known of a page that `unmap` flushed. -/
def PageFlush.Made {n : Nat} (p : PageFlush n) : Prop := MadeFor p.removed p.saving

theorem PageFlush.Made.saved_iff {n : Nat} {p : PageFlush n} (hm : p.Made) : p.Saved ↔ p.Fits := by
  refine or_congr_right ⟨?_, ?_⟩
  · rintro ⟨sv, hs, -, hrec⟩
    exact ⟨sv, hs, (hm sv hs).1.recorded_iff.mp hrec⟩
  · rintro ⟨sv, hs, hfits⟩
    exact ⟨sv, hs, (hm sv hs).2, (hm sv hs).1.recorded_iff.mpr hfits⟩

end

namespace UnmapCall

variable {n : Nat} {call : UnmapCall} {u u' : UnmapState n} {p : PageFlush n} {own own' : MemSpace}
  {pageAddress phys size next : Nat} {a a' : Answers}

theorem deleteOwn_accepts {meToo : Bool} {address n : Nat} {rights : PageAttribs}
    (h : call.deleteOwn meToo address n own a = .ok ((rights, own'), a'))
    (hown : (own.vLookup pageAddress).Accepts false phys size) :
    (own'.vLookup pageAddress).Accepts false phys size := by
  unfold deleteOwn at h
  split at h
  · exact MemSpace.vDelete_accepts hown (MapM.liftMem_ok h)
  · cases (MapM.pure_ok.mp h).1
    exact hown

theorem flushMapping_made {path : MappingPath} {removed : PageAttribs} {saving : Option Saving}
    (h : call.flushMapping u own path pageAddress phys size a = .ok ((u', removed, saving), a'))
    (hown : call.space ≠ sigma0Task → (own.vLookup pageAddress).Accepts false phys size)
    (haligned : size ∣ pageAddress ∧ size ∣ phys) : MadeFor removed saving := by
  unfold flushMapping at h
  obtain ⟨⟨rights, own'⟩, a₁, hdel, h⟩ := MapM.bind_ok.mp h
  obtain ⟨⟨visits, st⟩, a₂, -, h⟩ := MapM.bind_ok.mp h
  obtain ⟨⟨rights', spaces⟩, a₃, hvisits, h⟩ := MapM.bind_ok.mp h
  obtain ⟨⟨frame, st'⟩, a₄, -, h⟩ := MapM.bind_ok.mp h
  obtain ⟨saving, a₅, hsave, h⟩ := MapM.bind_ok.mp h
  cases (MapM.pure_ok.mp h).1
  refine saveAccessAttribs_made hsave (fun hne => ?_) haligned
  refine deleteVisited_accepts hvisits fun s hs => ?_
  rw [Function.update_self] at hs
  cases hs
  exact deleteOwn_accepts hdel (hown hne)

/-- What the flush of a page does: it makes no call, or the mapping was found and flushed. -/
theorem flushPresent_cases (h : call.flushPresent u own pageAddress phys size next a = .ok (p, a')) :
    p.next = next ∧ (p.saving = none ∨ ∃ (v v' : UnmapState n) (path : MappingPath) (a₁ a₂ : Answers),
      call.flushMapping v own path pageAddress phys size a₁ = .ok ((v', p.removed, p.saving), a₂)) := by
  unfold flushPresent at h
  split at h
  · obtain ⟨_, a₁, -, h⟩ := MapM.bind_ok.mp h
    cases (MapM.pure_ok.mp h).1
    exact ⟨rfl, .inl rfl⟩
  · obtain ⟨⟨found, st⟩, a₁, -, h⟩ := MapM.bind_ok.mp h
    dsimp only at h
    cases found with
    | none =>
      cases (MapM.pure_ok.mp h).1
      exact ⟨rfl, .inl rfl⟩
    | some path =>
      obtain ⟨⟨v', removed, saving⟩, a₂, hflush, h⟩ := MapM.bind_ok.mp h
      cases (MapM.pure_ok.mp h).1
      exact ⟨rfl, .inr ⟨_, v', path, a₁, a₂, hflush⟩⟩

/-- What an iteration does: it goes on to the next page, and a page of the space may be flushed. -/
theorem flushPage_cases (h : call.flushPage u a = .ok (p, a')) : ∃ own size,
    (size = pageSize ∨ size = Config.superpageSize) ∧
      p.next = Word.add (Word.roundDown u.address size) size ∧
      (p.saving = none ∨ ∃ (phys : Nat) (rights : PageAttribs) (v : UnmapState n),
        pageAt call.space own u.address = .page phys size rights ∧
        call.flushPresent v own (Word.roundDown u.address size) phys size p.next a = .ok (p, a')) := by
  unfold flushPage at h
  cases hown : u.st.spaces call.space with
  | none => exact absurd (hown ▸ h) MapM.throw_ok
  | some own =>
  rw [hown] at h
  dsimp only at h
  generalize (if call.space = sigma0Task then false else u.meToo) = meToo at h
  have hvalid := pageAt_valid call.space own u.address
  cases hpage : pageAt call.space own u.address with
  | free size =>
    rw [hpage] at h hvalid
    cases (MapM.pure_ok.mp h).1
    exact ⟨own, size, hvalid, rfl, .inl rfl⟩
  | page phys size rights =>
    rw [hpage] at h hvalid
    dsimp only at h
    split at h
    · cases (MapM.pure_ok.mp h).1
      exact ⟨own, size, hvalid, rfl, .inl rfl⟩
    split at h
    · exact absurd h MapM.throw_ok
    · have hnext := (flushPresent_cases h).1
      exact ⟨own, size, hvalid, hnext, .inr ⟨phys, rights, _, hpage, hnext ▸ h⟩⟩

theorem flushPresent_made (h : call.flushPresent u own pageAddress phys size next a = .ok (p, a'))
    (hown : call.space ≠ sigma0Task → (own.vLookup pageAddress).Accepts false phys size)
    (haligned : size ∣ pageAddress ∧ size ∣ phys) : p.Made := by
  obtain ⟨-, hnone | ⟨_, _, _, _, _, hflush⟩⟩ := flushPresent_cases h
  · exact fun sv hs => nomatch hnone ▸ hs
  · exact flushMapping_made hflush hown haligned

theorem flushPage_made (haddr : u.address < MemLayout.userMax) (h : call.flushPage u a = .ok (p, a')) :
    p.Made := by
  have haddr : u.address < 4294967296 := haddr.trans (by decide)
  obtain ⟨own, size, hvalid, -, hnone | ⟨phys, rights, v, hpage, hflush⟩⟩ := flushPage_cases h
  · exact fun sv hs => nomatch hnone ▸ hs
  have hdvd := dvd_roundDown_of_valid u.address hvalid
  unfold pageAt at hpage
  split at hpage
  next hsigma =>
    obtain ⟨rfl, rfl, -⟩ := Slot.page.inj hpage
    exact flushPresent_made hflush (absurd hsigma) ⟨hdvd, hdvd⟩
  next hsigma =>
    have haccepts := MemSpace.accepts_self (MemSpace.vLookup_pageAddress haddr hpage)
    exact flushPresent_made hflush (fun _ => haccepts) ⟨hdvd, MemSpace.vLookup_dvd hpage⟩

theorem loop_made {fuel : Nat} (hp : p ∈ (call.loop fuel u a).1) : p.Made := by
  induction fuel generalizing u a with
  | zero => cases hp
  | succ fuel ih =>
    unfold loop at hp
    split at hp
    next hrange =>
      cases hflush : call.flushPage u a with
      | error e =>
        rw [hflush] at hp
        cases hp
      | ok r =>
        obtain ⟨q, a₁⟩ := r
        have hmade : q.Made := flushPage_made hrange.2 hflush
        rw [hflush] at hp
        dsimp only at hp
        cases hfin : call.finishPage q a₁ with
        | error e =>
          rw [hfin] at hp
          exact List.mem_singleton.mp hp ▸ hmade
        | ok r =>
          rw [hfin] at hp
          rcases List.mem_cons.mp hp with rfl | hrest
          · exact hmade
          · exact ih hrest
    next => cases hp

theorem run_made (st : MapState n) (hp : p ∈ (call.run st a).1) : p.Made := by
  unfold run at hp
  split at hp
  · cases hp
  · exact loop_made hp

/-! ## The end of the loop -/

theorem lt_next {address : Nat} (haddr : address < MemLayout.userMax)
    (hsize : size = pageSize ∨ size = Config.superpageSize) :
    address / pageSize < Word.add (Word.roundDown address size) size / pageSize := by
  have hlt : address < 4294967296 := haddr.trans (by decide)
  unfold MemLayout.userMax at haddr
  rcases hsize with rfl | rfl
  · have hround : Word.roundDown address pageSize = address / 4096 * 4096 :=
      Word.roundDown_two_pow (k := 12) hlt (by decide)
    rw [hround, Word.add_eq (by unfold pageSize; omega)]
    unfold pageSize
    omega
  · have hround : Word.roundDown address Config.superpageSize = address / 4194304 * 4194304 :=
      Word.roundDown_two_pow (k := 22) hlt (by decide)
    rw [hround, Word.add_eq (by unfold Config.superpageSize; omega)]
    unfold pageSize Config.superpageSize
    omega

theorem flushPage_next (haddr : u.address < MemLayout.userMax) (h : call.flushPage u a = .ok (p, a')) :
    u.address / pageSize < p.next / pageSize := by
  obtain ⟨own, size, hvalid, hnext, -⟩ := flushPage_cases h
  rw [hnext]
  exact lt_next haddr hvalid

theorem finishPage_address (h : call.finishPage p a = .ok (u, a')) : u.address = p.next := by
  unfold finishPage at h
  obtain ⟨st, a₁, -, h⟩ := MapM.bind_ok.mp h
  cases hm : p.mapping with
  | none =>
    rw [hm] at h
    cases (MapM.pure_ok.mp h).1
    rfl
  | some path =>
    rw [hm] at h
    obtain ⟨st', a₂, -, h⟩ := MapM.bind_ok.mp h
    obtain ⟨st'', a₃, -, h⟩ := MapM.bind_ok.mp h
    cases (MapM.pure_ok.mp h).1
    rfl

theorem loop_finished {fuel : Nat} (hfuel : MemLayout.userMax / pageSize < fuel + u.address / pageSize)
    (h : (call.loop fuel u a).2 = .ok (u', a')) :
    ¬ (u'.address < u'.stop ∧ u'.address < MemLayout.userMax) := by
  induction fuel generalizing u a with
  | zero =>
    cases h
    rintro ⟨-, hlt⟩
    have := Nat.div_le_div_right (c := pageSize) hlt.le
    omega
  | succ fuel ih =>
    unfold loop at h
    split at h
    next hrange =>
      cases hflush : call.flushPage u a with
      | error e =>
        rw [hflush] at h
        cases h
      | ok r =>
        obtain ⟨q, a₁⟩ := r
        have hnext := flushPage_next hrange.2 hflush
        rw [hflush] at h
        dsimp only at h
        cases hfin : call.finishPage q a₁ with
        | error e =>
          rw [hfin] at h
          cases h
        | ok r =>
          rw [hfin] at h
          have haddr := finishPage_address hfin
          exact ih (by rw [haddr]; omega) h
    next hrange =>
      cases h
      exact hrange

/-- An unmap that returns has gone through all pages of its range. -/
theorem run_finished (st : MapState n) (h : (call.run st a).2 = .ok (u', a')) :
    ¬ (u'.address < u'.stop ∧ u'.address < MemLayout.userMax) := by
  unfold run at h
  split at h
  · cases h
  · exact loop_finished (Nat.lt_add_right _ (Nat.lt_succ_self _)) h

/-- The bits of a page are lost if they go to another space that has the page frame in a superpage. -/
theorem not_saved_of_superpage (st : MapState n) (hp : p ∈ (call.run st a).1) (hbits : accessed p.removed ≠ 0)
    {sv : Saving} (hsv : p.saving = some sv) (hown : sv.own = false) (htarget : sv.target ≠ sigma0Task)
    (hsize : sv.size = pageSize) {phys : Nat} {rights : PageAttribs}
    (hslot : sv.space.vLookup sv.virt = .page phys Config.superpageSize rights) : ¬ p.Saved := by
  intro hsaved
  rcases (run_made st hp).saved_iff.mp hsaved with h0 | ⟨sv', hs, hfits⟩
  · exact hbits h0
  cases hsv.symm.trans hs
  rcases hfits with ⟨hown', -⟩ | hfit | hforgiven
  · rw [hown] at hown'
    cases hown'
  · unfold Saving.Fits at hfit
    rw [hslot, hsize] at hfit
    exact absurd hfit.2 (by decide)
  · exact htarget hforgiven.1

/-! ## A lost bit

Task 5 owns a superpage, of which task 6 has one page. The mapping of task 6 is in a submap, where its parent
is the first entry of the tree. -/

def freshBlocks : Answers := fun i => some ⟨i + 1, fun _ => default⟩

def fromSuperpage : List MemEvent :=
  [.map ⟨2, 0x400000, 0x400000, 5, 0x800000, false, 0, 0⟩,
    .map ⟨5, 0x801000, 0x1000, 6, 0x8000, false, 0, 0⟩,
    .access 6 0x8000 true]

/-- The state after the start and the events, and the remaining answers. -/
def afterEvents (events : List MemEvent) : Except MapFault (MapState 1 × Answers) :=
  runEvents events (.boot (fun id => id = sigma0Task ∨ id = 5 ∨ id = 6) 8) freshBlocks

/-- Task 6 resets the access bits of its page, also for itself. -/
def selfReset : UnmapCall := ⟨6, 0, 0x8000, 0x1000, true, PageAttribs.referenced ||| PageAttribs.dirty⟩

/-- Task 5 resets the access bits of the page in the tasks that have it from task 5. -/
def childReset : UnmapCall := ⟨5, 0, 0x801000, 0x1000, false, PageAttribs.referenced ||| PageAttribs.dirty⟩

theorem exists_ok {ε α : Type} {r : Except ε α} {P : α → Prop} [DecidablePred P]
    (h : r.toOption.any (fun x => decide (P x)) = true) : ∃ x, r = .ok x ∧ P x := by
  cases r with
  | error e => cases h
  | ok x => exact ⟨x, rfl, of_decide_eq_true h⟩

end UnmapCall

end L4env.Fiasco
