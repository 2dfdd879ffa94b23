import Innigkeit.Capabilities.EndpointInvariant

/-!
Delivery of messages through an endpoint. A message for a receiver that already
waits lies in `pending_msg` until the receiver has the lock again. Every message
that is handed over is returned by one receive operation as long as nobody
writes `pending_msg` in the meantime; otherwise the message is lost, and the
one that replaced it may be returned twice.
-/

namespace Innigkeit.Capabilities.Endpoint

open Function Counting Transition List State

variable {Task : Type*} [DecidableEq Task] [Fintype Task]

def Pc.awake : Pc Task → ℕ
  | .recvWoken _ => 1
  | _ => 0

omit [DecidableEq Task] [Fintype Task] in
theorem Pc.awake_pos {pc : Pc Task} (h : 0 < pc.awake) : ∃ op, pc = .recvWoken op := by
  cases pc with
  | recvWoken op => exact ⟨op, rfl⟩
  | _ => cases h

namespace State

/-- The receivers that were woken and have not taken the lock again. -/
def awake (s : State Task) : ℕ := total Pc.awake s.pc

def writesPendingMsg (s : State Task) : Action → Bool
  | .send _ _ | .call _ _ => !s.recvQueue.isEmpty
  | .recv _ | .replyRecv _ _ _ => !s.callQueue.isEmpty
  | _ => false

end State

/-- Every message handed to a receiver is returned by one receive operation, or it is still in
`pending_msg` and a woken receiver is on its way to fetch it. -/
structure Delivered (s : State Task) : Prop where
  once : (s.returned.map Sent.origin).Nodup
  handed : ∀ m ∈ s.returned, m ∈ s.handed
  kept : ∀ m ∈ s.handed,
    m ∈ s.returned ∨ m = s.pendingMsg ∧ ∃ r op, s.pc r = .recvWoken op

/-- What a step does to the messages. -/
inductive Passing (s : State Task) (action : Action) (s' : State Task) : Prop where
  | nothing : s.writesPendingMsg action = false → s'.handed = s.handed →
      s'.returned = s.returned → s'.pendingMsg = s.pendingMsg → s'.awake = s.awake →
      Passing s action s'
  | handOff (m : Sent Task) : s.writesPendingMsg action = true → s'.handed = s.handed ++ [m] →
      s'.returned = s.returned → s'.pendingMsg = m → s'.awake = s.awake + 1 → Passing s action s'
  | dequeue (m : Sent Task) : s'.handed = s.handed ++ [m] → s'.returned = s.returned ++ [m] →
      (if s.writesPendingMsg action then s'.pendingMsg = m else s'.pendingMsg = s.pendingMsg) →
      s'.awake = s.awake → Passing s action s'
  | fetch : s.writesPendingMsg action = false → s'.handed = s.handed →
      s'.returned = s.returned ++ [s.pendingMsg] → s'.pendingMsg = s.pendingMsg →
      s'.awake + 1 = s.awake → Passing s action s'

section

variable {s : State Task} {t : Task} {msg : Message} {caps : Caps} {op : RecvOp}

omit [DecidableEq Task] [Fintype Task] in
theorem after_awake (op : RecvOp) (sent : Sent Task) (sender : Option Task) :
    (op.after sent sender).awake = 0 := by
  cases op <;> rfl

theorem passing_send (hi : Inv s) (ht : s.pc t = .idle) :
    Passing s (.send msg caps) (s.send t msg caps) := by
  have hsub : Inv (s.submit t msg) := hi.submit ht
  simp only [send]
  split
  · rename_i r rest hq
    obtain ⟨op, hr⟩ := hsub.receiver_parked hq
    have hqueue : s.recvQueue = r :: rest := hq
    have hmove := total_update Pc.awake (s.submit t msg).pc r (.recvWoken op)
    rw [hr] at hmove
    rw [handOff_eq hr]
    exact .handOff _ (by simp [writesPendingMsg, hqueue]) rfl rfl rfl hmove
  · rename_i hq
    have hqueue : s.recvQueue = [] := hq
    exact .nothing (by simp [writesPendingMsg, hqueue]) rfl rfl rfl
      (total_update_of_eq Pc.awake s.pc (by rw [ht]; rfl))

theorem passing_call (hi : Inv s) (ht : s.pc t = .idle) :
    Passing s (.call msg caps) (s.call t msg caps) := by
  have hsub : Inv (s.submit t msg) := hi.submit ht
  simp only [call]
  split
  · rename_i r rest hq
    obtain ⟨op, hr⟩ := hsub.receiver_parked hq
    have hqueue : s.recvQueue = r :: rest := hq
    have hmove := total_update Pc.awake (s.submit t msg).pc r (.recvWoken op)
    rw [hr] at hmove
    rw [handOff_eq hr]
    have hrt : t ≠ r := by
      intro htr
      rw [← htr] at hr
      cases ht.symm.trans hr
    refine .handOff _ (by simp [writesPendingMsg, hqueue]) rfl rfl rfl ?_
    refine (total_update_of_eq Pc.awake _ ?_).trans hmove
    have hidle : (s.submit t msg).pc t = .idle := ht
    simp only [update_of_ne hrt, hidle]
    rfl
  · rename_i hq
    have hqueue : s.recvQueue = [] := hq
    exact .nothing (by simp [writesPendingMsg, hqueue]) rfl rfl rfl
      (total_update_of_eq Pc.awake s.pc (by rw [ht]; rfl))

/-- A receive operation writes `pending_msg` when it takes a caller, `recvCall` excepted. -/
theorem passing_receive (hi : Inv s) (ht : s.pc t = .idle) {action : Action}
    (hw : s.writesPendingMsg action = (op ≠ .recvCall && !s.callQueue.isEmpty)) :
    Passing s action (s.receive t op caps) := by
  have hawake : ∀ sent sender, total Pc.awake (update s.pc t (op.after sent sender)) = s.awake :=
    fun sent sender => total_update_of_eq Pc.awake s.pc (by rw [ht, after_awake]; rfl)
  simp only [receive]
  split
  · rename_i c rest hq
    cases op with
    | recvCall => exact .dequeue _ rfl rfl (by simp [hw, finish]) (hawake _ _)
    | recv | replyRecv => exact .dequeue _ rfl rfl (by simp [hw, hq, finish]) (hawake _ _)
  · rename_i c rest hcalls hq
    have hc := hi.sender_parked hq
    refine .dequeue _ rfl rfl (by simp [hw, hcalls, finish]) ?_
    have hct : t ≠ c := by
      intro htc
      rw [← htc, ht] at hc
      cases hc
    refine (total_update_of_eq Pc.awake _ ?_).trans
      (total_update_of_eq Pc.awake s.pc (by rw [hc]; rfl))
    simp only [update_of_ne hct, after_awake, ht]
    rfl
  · rename_i hcalls hsends
    exact .nothing (by simp [hw, hcalls]) rfl rfl rfl
      (total_update_of_eq Pc.awake s.pc (by rw [ht]; rfl))

theorem awake_wakeCaller {c : Task} (hpc : s.pc c = .callParked) :
    (s.wakeCaller c msg).awake = s.awake :=
  total_update_of_eq Pc.awake s.pc (by rw [hpc]; rfl)

theorem passing_relock (hi : Inv s) (ht : s.pc t = .recvWoken op) :
    Passing s .relock (s.relock t op) := by
  have hfinish : ∀ (s₀ : State Task) sent sender, s₀.pc t = .recvWoken op →
      (s₀.finish t op sent sender).awake + 1 = s₀.awake := by
    intro s₀ sent sender hpc
    have hmove := total_update Pc.awake s₀.pc t (op.after sent sender)
    rw [hpc, after_awake] at hmove
    exact hmove
  cases op with
  | replyRecv => exact .fetch rfl rfl rfl rfl (hfinish s _ _ ht)
  | recvCall => exact .fetch rfl rfl rfl rfl (hfinish { s with pendingSender := none } _ _ ht)
  | recv =>
    have hpc : s.dismiss.pc t = .recvWoken .recv := (dismiss_pc hi (by rw [ht]; simp)).trans ht
    have hdismiss : s.dismiss.awake = s.awake ∧ s.dismiss.handed = s.handed ∧
        s.dismiss.returned = s.returned ∧ s.dismiss.pendingMsg = s.pendingMsg := by
      unfold dismiss
      split
      · rename_i c hc
        exact ⟨awake_wakeCaller (s := { s with pendingSender := none })
          (hi.pending_parked hc).1, rfl, rfl, rfl⟩
      · exact ⟨rfl, rfl, rfl, rfl⟩
    obtain ⟨hawake, hhanded, hreturned, hmsg⟩ := hdismiss
    refine .fetch rfl hhanded ?_ hmsg ?_
    · simp only [relock, finish, hreturned]
    · rw [← hawake]
      exact hfinish s.dismiss _ _ hpc

theorem answer_frame (hi : Inv s) (t : Task) (msg : Message) (caps : Caps) :
    (s.answer t msg caps).awake = s.awake ∧ (s.answer t msg caps).handed = s.handed ∧
      (s.answer t msg caps).returned = s.returned ∧
      (s.answer t msg caps).pendingMsg = s.pendingMsg ∧
      (s.answer t msg caps).callQueue = s.callQueue := by
  unfold answer
  split
  · rename_i c hc
    exact ⟨total_update_of_eq Pc.awake s.pc (by rw [(hi.pending_parked hc).1]; rfl), rfl, rfl, rfl,
      rfl⟩
  · exact ⟨rfl, rfl, rfl, rfl, rfl⟩

theorem passing_handle {request : Sent Task} {sender : Option Task} {outcome : HandlerOutcome}
    (hi : Inv s) (ht : s.pc t = .handling request sender) :
    Passing s (.handle outcome) (s.handle t request sender outcome) := by
  have hidle : total Pc.awake (update s.pc t .idle) = s.awake :=
    total_update_of_eq Pc.awake s.pc (by rw [ht]; rfl)
  cases sender with
  | none => cases outcome <;> exact .nothing rfl rfl rfl rfl hidle
  | some c =>
    have hplain := plain_of ht ⟨rfl, rfl, rfl⟩
    have hpc := (holder_parked hi (by rw [ht]; rfl) hplain).1
    cases outcome with
    | writeUserFails | inserted => exact .nothing rfl rfl rfl rfl hidle
    | createFails | tableFull =>
      exact .nothing rfl rfl rfl rfl
        ((awake_wakeCaller (s := { s with pc := update s.pc t .idle }) hpc).trans hidle)

theorem passing_swap {index : ℕ} {issued : Bool} {action : Action} (ht : s.pc t = .idle)
    (hw : s.writesPendingMsg action = false) : Passing s action (s.swap t index msg issued) := by
  unfold State.swap
  split
  · exact .nothing hw rfl rfl rfl (total_update_of_eq Pc.awake s.pc (by rw [ht]; rfl))
  · exact .nothing hw rfl rfl rfl rfl

theorem passing_deliver {c : Task} {issued : Option (Sent Task)} (hi : Inv s)
    (ht : s.pc t = .replying c msg issued) : Passing s .deliver (s.deliver t c msg issued) := by
  have hplain := plain_of ht ⟨rfl, rfl, rfl⟩
  have hpc := (holder_parked hi (by rw [ht]; rfl) hplain).1
  unfold deliver
  refine .nothing rfl rfl rfl rfl ?_
  rw [awake_wakeCaller hpc]
  exact total_update_of_eq Pc.awake s.pc (by rw [ht]; rfl)

end

omit [DecidableEq Task] in
theorem Passing.after_answer {s s' s₁ : State Task} {action : Action}
    (h : Passing s₁ action s') (hawake : s₁.awake = s.awake) (hhanded : s₁.handed = s.handed)
    (hreturned : s₁.returned = s.returned) (hmsg : s₁.pendingMsg = s.pendingMsg)
    (hw : s₁.writesPendingMsg action = s.writesPendingMsg action) : Passing s action s' := by
  cases h with
  | nothing h1 h2 h3 h4 h5 =>
    exact .nothing (hw ▸ h1) (hhanded ▸ h2) (hreturned ▸ h3) (hmsg ▸ h4) (hawake ▸ h5)
  | handOff m h1 h2 h3 h4 h5 =>
    exact .handOff m (hw ▸ h1) (hhanded ▸ h2) (hreturned ▸ h3) h4 (hawake ▸ h5)
  | dequeue m h1 h2 h3 h4 =>
    rw [hw, hmsg] at h3
    exact .dequeue m (hhanded ▸ h1) (hreturned ▸ h2) h3 (hawake ▸ h4)
  | fetch h1 h2 h3 h4 h5 =>
    rw [hreturned, hmsg] at h3
    exact .fetch (hw ▸ h1) (hhanded ▸ h2) h3 (hmsg ▸ h4) (hawake ▸ h5)

theorem next_passing {s s' : State Task} {t : Task} {action : Action} (hi : Inv s)
    (h : s.next (t, action) = some s') : Passing s action s' := by
  cases next_stepped h with
  | send _ _ ht => exact passing_send hi ht
  | call _ _ ht => exact passing_call hi ht
  | recv _ ht => exact passing_receive hi ht rfl
  | recvCall _ ht => exact passing_receive hi ht rfl
  | reply msg caps ht =>
    obtain ⟨hawake, hhanded, hreturned, hmsg, _⟩ := answer_frame hi t msg caps
    exact .nothing rfl hhanded hreturned hmsg hawake
  | replyRecv msg replyCaps caps ht =>
    obtain ⟨hawake, hhanded, hreturned, hmsg, hcalls⟩ := answer_frame hi t msg replyCaps
    have hidle : (s.answer t msg replyCaps).pc t = .idle :=
      (answer_pc hi (by rw [ht]; simp)).trans ht
    refine (passing_receive (inv_answer hi) hidle ?_).after_answer hawake hhanded hreturned hmsg ?_
    · rfl
    · simp only [writesPendingMsg, hcalls]
  | relock _ ht => exact passing_relock hi ht
  | handle _ _ _ ht => exact passing_handle hi ht
  | replySend _ _ _ ht => exact passing_swap ht rfl
  | replyDestroy _ ht => exact passing_swap ht rfl
  | deliver _ _ _ ht => exact passing_deliver hi ht

/-! ### Runs -/

/-- A step that writes `pending_msg` finds no woken receiver on its way. -/
def undisturbed (s : State Task) (l : Task × Action) : Prop :=
  s.writesPendingMsg l.2 = true → s.awake = 0

/-- The message that a woken receiver is going to fetch. -/
def State.inFlight (s : State Task) : List (Sent Task) :=
  if s.awake = 0 then [] else [s.pendingMsg]

structure Passed (s : State Task) : Prop where
  awake_le : s.awake ≤ 1
  perm : s.handed.Perm (s.returned ++ s.inFlight)

theorem passed_next {s s' : State Task} {l : Task × Action} (hi : Inv s) (hp : Passed s)
    (ha : undisturbed s l) (h : s.next l = some s') : Passed s' := by
  obtain ⟨t, action⟩ := l
  obtain ⟨hle, hperm⟩ := hp
  unfold undisturbed at ha
  unfold inFlight at hperm
  cases next_passing hi h with
  | nothing hw hhanded hreturned hmsg hawake =>
    refine ⟨by omega, ?_⟩
    rwa [inFlight, hhanded, hreturned, hmsg, hawake]
  | handOff m hw hhanded hreturned hmsg hawake =>
    have hzero := ha hw
    refine ⟨by omega, ?_⟩
    rw [if_pos hzero, append_nil] at hperm
    rw [inFlight, hhanded, hreturned, hmsg, hawake, if_neg (by omega)]
    exact hperm.append_right [m]
  | dequeue m hhanded hreturned hmsg hawake =>
    refine ⟨by omega, ?_⟩
    have hflight : s'.inFlight = s.inFlight := by
      unfold inFlight
      rw [hawake]
      by_cases hzero : s.awake = 0
      · rw [if_pos hzero, if_pos hzero]
      · rw [if_neg hzero, if_neg hzero]
        rw [if_neg (fun hw => hzero (ha hw))] at hmsg
        rw [hmsg]
    rw [hflight, hhanded, hreturned, append_assoc]
    refine (hperm.append_right [m]).trans ?_
    rw [append_assoc]
    exact perm_append_comm.append_left _
  | fetch hw hhanded hreturned hmsg hawake =>
    refine ⟨by omega, ?_⟩
    rw [if_neg (by omega)] at hperm
    rw [inFlight, if_pos (by omega), hhanded, hreturned, append_nil]
    exact hperm

theorem delivered_of_passed {s : State Task} (hi : Inv s) (hp : Passed s) : Delivered s := by
  obtain ⟨hle, hperm⟩ := hp
  have hnodup : ((s.returned ++ s.inFlight).map Sent.origin).Nodup :=
    (hperm.map Sent.origin).nodup_iff.mp hi.handed_nodup
  rw [map_append] at hnodup
  refine ⟨(nodup_append.mp hnodup).1, ?_, ?_⟩
  · intro m hm
    exact hperm.mem_iff.mpr (mem_append_left _ hm)
  · intro m hm
    cases mem_append.mp (hperm.mem_iff.mp hm) with
    | inl hm => exact .inl hm
    | inr hm =>
      unfold inFlight at hm
      by_cases hzero : s.awake = 0
      · rw [if_pos hzero] at hm
        cases hm
      · rw [if_neg hzero] at hm
        obtain ⟨r, hr⟩ := exists_of_total_pos Pc.awake s.pc (pos_of_ne_zero hzero)
        exact .inr ⟨mem_singleton.mp hm, r, Pc.awake_pos hr⟩

/-- Whoever writes `pending_msg` before a woken receiver has fetched it loses the message. -/
theorem not_delivered_of_disturbed {s s' : State Task} {l : Task × Action} (hi : Inv s)
    (hp : Passed s) (ha : ¬ undisturbed s l) (h : s.next l = some s') : ¬ Delivered s' := by
  have hi' := inv_next hi h
  obtain ⟨t, action⟩ := l
  obtain ⟨hle, hperm⟩ := hp
  obtain ⟨hw, hawake⟩ : s.writesPendingMsg action = true ∧ s.awake ≠ 0 := by
    simpa [undisturbed] using ha
  rw [inFlight, if_neg hawake] at hperm
  have hmem : s.pendingMsg ∈ s.handed := hperm.mem_iff.mpr (by simp)
  have hnot : s.pendingMsg ∉ s.returned := by
    intro hin
    have hnodup := (hperm.map Sent.origin).nodup_iff.mp hi.handed_nodup
    rw [map_append, nodup_append] at hnodup
    exact hnodup.2.2 _ (mem_map_of_mem hin) _ (by simp) rfl
  -- the message that takes the place of the pending one is another one
  have hnew : ∀ m, s'.handed = s.handed ++ [m] → m ≠ s.pendingMsg := by
    intro m hm heq
    have hnodup := hi'.handed_nodup
    rw [hm, heq, map_append, nodup_append] at hnodup
    exact hnodup.2.2 _ (mem_map_of_mem hmem) _ (by simp) rfl
  intro hd
  cases next_passing hi h with
  | nothing hno => rw [hno] at hw; cases hw
  | fetch hno => rw [hno] at hw; cases hw
  | handOff m _ hhanded hreturned hmsg _ =>
    cases hd.kept s.pendingMsg (by rw [hhanded]; exact mem_append_left _ hmem) with
    | inl hin => exact hnot (hreturned ▸ hin)
    | inr heq => exact hnew m hhanded (hmsg.symm.trans heq.1.symm)
  | dequeue m hhanded hreturned hmsg _ =>
    rw [if_pos hw] at hmsg
    cases hd.kept s.pendingMsg (by rw [hhanded]; exact mem_append_left _ hmem) with
    | inl hin =>
      rw [hreturned] at hin
      cases mem_append.mp hin with
      | inl hin => exact hnot hin
      | inr hin => exact hnew m hhanded (mem_singleton.mp hin).symm
    | inr heq => exact hnew m hhanded (hmsg.symm.trans heq.1.symm)

/-- In a run whose steps are all undisturbed every message is delivered, and a step that is
disturbed loses one. -/
theorem messages_delivered :
    (∀ s : State Task, (system Task).Reachable undisturbed s → Delivered s) ∧
    ∀ (s s' : State Task) (l : Task × Action), (system Task).Reachable undisturbed s →
      s.next l = some s' → ¬ undisturbed s l → ¬ Delivered s' := by
  have hpassed : ∀ s : State Task, (system Task).Reachable undisturbed s → Inv s ∧ Passed s := by
    intro s h
    refine @System.Reachable.invariant _ _ _ _ (fun s => Inv s ∧ Passed s) ?_ ?_ s h
    · intro s hs
      rw [show s = init from hs]
      refine ⟨inv_init, ?_, ?_⟩
      · simp [awake, total, init, Pc.awake]
      · simp [inFlight, awake, total, init, Pc.awake]
    · intro s l s' hi ha hs
      exact ⟨inv_next hi.1 hs, passed_next hi.1 hi.2 ha hs⟩
  constructor
  · intro s h
    exact delivered_of_passed (hpassed s h).1 (hpassed s h).2
  · intro s s' l h hs ha
    exact not_delivered_of_disturbed (hpassed s h).1 (hpassed s h).2 ha hs

instance (s : State Task) (l : Task × Action) : Decidable (undisturbed s l) :=
  inferInstanceAs (Decidable (_ → _))

/-- A receiver parks, a sender hands its message over and the receiver returns it. -/
theorem messages_delivered_one_receiver :
    ∃ s : State (Fin 2), s.returned = [⟨some (1, 1), false, { tag := 7 }⟩] ∧ Delivered s := by
  refine ⟨_, ?_, messages_delivered.1 _ (System.restrict_reachable
    [(0, Action.recv ⟨[0, 0, 0, 0], rfl⟩), (1, .send { tag := 7 } ⟨[0, 0, 0, 0], rfl⟩), (0, .relock)]
    (.init rfl) rfl)⟩
  rfl

/-- Two receivers are parked and two senders hand over their messages before the first receiver
has the lock again: both receivers return the second message. -/
theorem message_lost :
    ∃ s : State (Fin 4), (system (Fin 4)).Reachable anyStep s ∧
      ⟨some (2, 1), false, { tag := 1 }⟩ ∈ s.handed ∧
      s.returned = [⟨some (3, 1), false, { tag := 2 }⟩, ⟨some (3, 1), false, { tag := 2 }⟩] ∧
      ¬ Delivered s := by
  refine ⟨_, System.runNext_reachable
    [(0, Action.recv ⟨[0, 0, 0, 0], rfl⟩), (1, .recv ⟨[0, 0, 0, 0], rfl⟩),
      (2, .send { tag := 1 } ⟨[0, 0, 0, 0], rfl⟩), (3, .send { tag := 2 } ⟨[0, 0, 0, 0], rfl⟩),
      (0, .relock), (1, .relock)] (.init rfl) rfl, ?_, ?_, ?_⟩
  · decide
  · rfl
  · intro h
    exact absurd h.once (by decide)

end Innigkeit.Capabilities.Endpoint
