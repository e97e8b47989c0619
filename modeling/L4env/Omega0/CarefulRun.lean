import L4env.Omega0.ServerRun

/-!
# Careful runs of the interrupt server

A client is not detached while the thread of its line is still in the IPC that wakes it up.
-/

namespace L4env.Omega0

variable {d d' : Irq} {sent : ThreadId → Bool} {w : Irq.Work}

namespace Irq

theorem signalLoop_wakeup {l : List Client} (h : d.wakeup ≠ .freed) : (signalLoop sent l d).wakeup ≠ .freed := by
  induction l generalizing d with
  | nil => exact h
  | cons c rest ih =>
    have hs : (d.signalSingleUserThread c (sent c.client)).wakeup ≠ .freed := by
      rwa [signalSingleUserThread_wakeup]
    cases rest with
    | nil =>
      unfold signalLoop
      split
      · split
        · simp
        · rwa [signalSingleUserThread_wakeup]
      · exact h
    | cons c₂ rest =>
      unfold signalLoop
      split
      · exact ih hs
      · exact ih h

theorem wait_wakeup (h : w.d.Idle) (s : Bool) : (wait w s).wakeup ≠ .freed := by
  have hidle := (checkAutoConsume_spec w.d w.c).wakeup.trans h
  unfold wait
  dsimp only
  repeat' split
  · simp
  all_goals exact hidle.trans_ne (by simp)

theorem handleUserRequest_wakeup (h : d.Inv) (hidle : d.Idle) (irq : Nat) (sender : ThreadId) (req : Request)
    (s : Bool) : (d.handleUserRequest irq sender req s).2.wakeup ≠ .freed := by
  have hne : ∀ {d : Irq}, d.Idle → d.wakeup ≠ .freed := fun h => h.trans_ne (by simp)
  unfold handleUserRequest
  split
  · exact hne hidle
  · rename_i hfind
    have hout := stages_ok h hidle (List.mem_of_find?_eq_some hfind) irq req
    split
    · rename_i hr
      exact hne (hout.error hr).idle
    · rename_i hr
      split
      · exact wait_wakeup (hout.ok hr).idle s
      · exact hne (hout.ok hr).idle

theorem detach_wakeup {p : ThreadId → Bool} (h : d.detach p = some d')
    (hp : ∀ t keep, d.wakeup = .client t keep → p t = false) : d'.wakeup = d.wakeup := by
  unfold detach at h
  split at h
  · cases h
  · rename_i c hfind
    have hc : p c.client = true := List.find?_some (p := fun c : Client => p c.client) hfind
    cases h
    dsimp only
    rw [(checkAutoConsume_spec d c).wakeup]
    cases hw : d.wakeup with
    | client t keep =>
      refine if_neg fun ht => ?_
      rw [← ht, hp t keep hw] at hc
      cases hc
    | _ => rfl

end Irq

namespace Server

variable {s s' : Server} {e : Event}

/-- No thread of a line is in the wakeup of such a client. -/
def Spares (s : Server) (p : ThreadId → Bool) : Prop :=
  ∀ i t keep, (s i).wakeup = .client t keep → p t = false

def Event.Careful (s : Server) : Event → Prop
  | .detach client _ | .pass client _ _ _ => s.Spares fun t => t = client
  | .detachAll task => s.Spares fun t => t.task = task
  | _ => True

/-- The wakeups are the same. -/
def Same (s s' : Server) : Prop := ∀ j, (s' j).wakeup = (s j).wakeup

theorem Same.setIrq {i : Nat} (h : d.wakeup = (s i).wakeup) : s.Same (s.setIrq i d) :=
  setIrq_rule (P := fun j d => d.wakeup = (s j).wakeup) h fun _ => rfl

theorem detach_same {p : ThreadId → Bool} (k : Int) (hp : s.Spares p) :
    Outcome (fun r => s.Same r.2) (fun _ => True) (s.detach k p) := by
  unfold detach
  split
  · split
    · exact fun _ => rfl
    · rename_i hd
      exact .setIrq (Irq.detach_wakeup hd (hp _))
  · trivial

theorem detachAll_same {task : Nat} (hp : s.Spares fun t => t.task = task) :
    Outcome s.Same (fun _ => True) (s.detachAll task) := by
  unfold detachAll
  generalize List.range irqNums = l
  induction l generalizing s with
  | nil => exact fun _ => rfl
  | cons i l ih =>
    rw [List.foldlM_cons]
    refine (detach_same i hp).map.bind fun s₁ h₁ => ?_
    exact (ih fun i t keep hw => hp i t keep (h₁ i ▸ hw)).mono (fun _ h₂ j => (h₂ j).trans (h₁ j)) fun _ _ => trivial

theorem attach_same (client : ThreadId) (desc : IrqDesc) (mem : Option Request) :
    Outcome (fun r => s.Same r.2) (fun _ => True) (s.attach client desc mem) := by
  unfold Server.attach
  dsimp only
  generalize (desc.num + 2 ^ 16 - 1) % 2 ^ 16 = num
  repeat' split
  all_goals first | trivial | exact fun _ => rfl | exact Same.setIrq (i := num) rfl

theorem step_wakeup (h : s.Inv) (hl : ∀ i, (s i).wakeup ≠ .freed) (he : e.Enabled s) (hc : Event.Careful s e) :
    Outcome (fun s' => ∀ i, (s' i).wakeup ≠ .freed) (fun _ => True) (s.step e) := by
  have hline : ∀ (i : Nat) (next : Request) (k : Irq → Irq), i < irqNums →
      (∀ d, d.Inv → d.Idle → (k d).wakeup ≠ .freed) → Outcome (fun s' => ∀ j, (s' j).wakeup ≠ .freed) (fun _ => True)
        ((s i).finishWakeup next >>= fun d => .ok (s.setIrq i (k d))) := by
    intro i next k hi hk
    refine ((Irq.finishWakeup_outcome (h.line i hi) next).mono (fun _ hd => hd) fun _ _ => trivial).bind fun d hd => ?_
    exact setIrq_rule (P := fun _ d => d.wakeup ≠ .freed) (hk d hd.1.1 hd.2.1) hl
  have hsame : ∀ {m : Except Fault Server}, Outcome s.Same (fun _ => True) m →
      Outcome (fun s' => ∀ i, (s' i).wakeup ≠ .freed) (fun _ => True) m := fun h =>
    h.mono (fun s' hs j => hs j ▸ hl j) fun _ _ => trivial
  cases e with
  | attach client desc mem => exact hsame (attach_same client desc mem).map
  | detach client desc => exact hsame (detach_same _ hc).map
  | detachAll task => exact hsame (detachAll_same hc)
  | pass client desc newClient mem =>
    refine hsame (Outcome.map ((detach_same _ hc).bind fun r hr => ?_))
    split
    · exact (attach_same newClient desc mem).mono (fun _ h j => (h j).trans (hr j)) fun _ _ => trivial
    · exact hr
  | interrupt i sent =>
    exact hline i _ _ he.1 fun d _ hidle => Irq.signalLoop_wakeup (hidle.trans_ne (by simp))
  | request i sender req sent =>
    exact hline i _ _ he fun d hd hidle => Irq.handleUserRequest_wakeup hd hidle i sender req sent
  | other i next => exact hline i next id he fun d _ hidle => hidle.trans_ne (by simp)

/-- The states of all careful runs. -/
inductive CarefullyReachable : Server → Prop
  | boot {s : Server} : Booted s → CarefullyReachable s
  | step {s s' : Server} {e : Event} : CarefullyReachable s → e.Enabled s → Event.Careful s e →
      s.step e = .ok s' → CarefullyReachable s'

/-- In a careful run a step fails only for a number that is off the table. -/
theorem careful_lines_live (h : CarefullyReachable s) : (∀ i, (s i).wakeup ≠ .freed) ∧
    ∀ (e : Event) (f : Fault), e.Enabled s → s.step e = .error f → f = .outOfBounds ∧ e.Faults s f := by
  have hboth : s.Inv ∧ ∀ i, (s i).wakeup ≠ .freed := by
    induction h with
    | boot h => exact ⟨h.inv, fun i => by simp [h.wakeup i]⟩
    | step _ he hc hr ih => exact ⟨(step_outcome ih.1 he).ok hr, (step_wakeup ih.1 ih.2 he hc).ok hr⟩
  refine ⟨hboth.2, fun e f he hr => ?_⟩
  have hf := (step_outcome hboth.1 he).error hr
  refine ⟨?_, hf⟩
  cases e with
  | attach | detach | pass => exact hf.1
  | detachAll => exact hf.elim
  | interrupt i | request i | other i => exact absurd hf.2 (hboth.2 i)

/-- A thread attaches to the timer, waits, and is woken up. -/
theorem careful_lines_live_woken : ∃ s : Server, CarefullyReachable s ∧ (s 0).wakeup = .client ⟨7, 1⟩ false ∧
    ∀ f, s.step (.other 0 ⟨0, false, false, false, false, false⟩) ≠ .error f := by
  have hline : 0 < irqNums := by decide
  have h₁ := CarefullyReachable.step (.boot quiet_booted) (by trivial) (by trivial) quiet_attach
  have h₂ := h₁.step (e := .request 0 ⟨7, 1⟩ ⟨1, true, false, false, true, false⟩ true) hline trivial rfl
  have h₃ := h₂.step (e := .interrupt 0 fun _ => true) ⟨hline, rfl, by decide⟩ trivial rfl
  refine ⟨_, h₃, rfl, fun f hr => ?_⟩
  have hf := (careful_lines_live h₃).2 (.other 0 _) f hline hr
  cases hf.1.symm.trans hf.2.1

end Server

end L4env.Omega0
