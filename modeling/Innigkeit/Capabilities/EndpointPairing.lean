import Innigkeit.Capabilities.EndpointDelivery

/-!
Calls and their replies. A task blocked in `call` is to be found in one place
until its call is ended, and a reply is to reach the caller whose message the
replying task has received. The single `pending_sender` does not ensure this: it
may be overwritten, or taken by a receiver of another message, and the handler
of `recv_call` forgets its caller when it cannot write the message to user
memory. `keepsPairing` lists what the users of an endpoint have to avoid.
-/

namespace Innigkeit.Capabilities.Endpoint

open Function Counting Transition List Option State

variable {Task : Type*} [DecidableEq Task] [Fintype Task]

structure Paired (s : State Task) : Prop where
  recorded : ∀ t, s.pc t = .callParked → s.recorded t = 1
  ended_once : s.woken.Nodup
  ended : ∀ t k, (t, k) ∈ s.calls →
    ((t, k) ∈ s.woken ↔ ¬ (s.pc t = .callParked ∧ k = s.number t))
  replies : ∀ d ∈ s.deliveries, d.issuedFor = d.delivered

def answersPending (s : State Task) (t : Task) : Prop :=
  ∀ c ∈ s.pendingSender, s.answering t = some (s.current c)

/-- What a step has to respect: `pending_msg` is not written while a woken receiver is on its
way, `pending_sender` only when it is empty, a call is not handed to a plain `recv`, a send is
handed to `recv` or `recvCall` only when no sender is pending, only the receiver of its message
answers the pending sender, and the `recv_call` handler can write the message of a caller. -/
def keepsPairing (s : State Task) : Task × Action → Prop
  | (_, .send _ _) => ∀ r ∈ s.recvQueue.head?,
      s.awake = 0 ∧ (s.pc r = .recvParked .replyRecv ∨ s.pendingSender = none)
  | (_, .call _ _) => ∀ r ∈ s.recvQueue.head?,
      s.awake = 0 ∧ s.pc r ≠ .recvParked .recv ∧ s.pendingSender = none
  | (_, .recv _) => s.callQueue ≠ [] → s.awake = 0 ∧ s.pendingSender = none
  | (t, .reply _ _) => answersPending s t
  | (t, .replyRecv _ _ _) => answersPending s t ∧ (s.callQueue ≠ [] → s.awake = 0)
  | (t, .handle outcome) => outcome = .writeUserFails → (s.pc t).holder = none
  | _ => True

/-! ### Blocked callers are recorded -/

/-- Every task blocked in `call` is recorded; the invariant of all runs gives the other bound. -/
def Kept (s : State Task) : Prop := ∀ t, (s.pc t).blocked ≤ s.recorded t

open State

section

variable {s : State Task} {t c : Task} {rest : List Task} {msg : Message} {caps : Caps}
variable {op : RecvOp} {sent : Sent Task}

theorem kept_relocate {p q : Pc Task} (hk : Kept s) (ht : s.pc t = q)
    (hblocked : p.blocked = q.blocked) (hholder : q.holder = none) :
    Kept { s with pc := update s.pc t p } := by
  intro u
  have h := hk u
  have hmove := holders_move ht p u
  simp only [recorded] at h ⊢
  grind [update_apply]

theorem kept_send (hi : Inv s) (hk : Kept s) (ht : s.pc t = .idle) : Kept (s.send t msg caps) := by
  simp only [send]
  split
  · rename_i r rest hq
    obtain ⟨op, hr⟩ := hi.receiver_parked hq
    rw [handOff_eq (s := s.submit t msg) hr]
    exact kept_relocate (s := s) hk hr rfl rfl
  · exact kept_relocate (s := s) hk ht rfl rfl

theorem kept_call (hi : Inv s) (hk : Kept s) (ht : s.pc t = .idle)
    (hpending : s.recvQueue ≠ [] → s.pendingSender = none) : Kept (s.call t msg caps) := by
  simp only [call]
  split
  · rename_i r rest hq
    have hnone : s.pendingSender = none := by
      apply hpending
      rw [show s.recvQueue = r :: rest from hq]
      simp
    obtain ⟨op, hr⟩ := hi.receiver_parked hq
    rw [handOff_eq (s := s.submit t msg) hr]
    have hk' : Kept { s with pc := update s.pc r (.recvWoken op) } :=
      kept_relocate hk hr rfl rfl
    intro u
    have h := hk' u
    have hidle : update s.pc r (.recvWoken op) t = .idle := by
      rw [update_of_ne, ht]
      intro htr
      rw [← htr, ht] at hr
      cases hr
    have hmove := holders_move (s := { s with pc := update s.pc r _ }) hidle .callParked u
    simp only [recorded, submit, hnone] at h ⊢
    grind [Pc.blocked, Pc.holder, update_apply]
  · intro u
    have h := hk u
    have hmove := holders_move ht .callParked u
    simp only [recorded, submit] at h ⊢
    grind [Pc.blocked, Pc.holder, update_apply]

theorem kept_receive (hi : Inv s) (hk : Kept s) (ht : s.pc t = .idle)
    (hpending : op ≠ .recvCall → s.callQueue ≠ [] → s.pendingSender = none) :
    Kept (s.receive t op caps) := by
  simp only [receive]
  split
  · rename_i d rest hq
    have hnil : s.callQueue ≠ [] := by simp [hq]
    intro u
    have h := hk u
    cases op with
    | recvCall =>
      have hmove := holders_move ht (RecvOp.after (queued s d true caps) (some d) .recvCall) u
      simp only [recorded, finish, hq, queued] at h hmove ⊢
      grind [Pc.blocked, Pc.holder, RecvOp.after, update_apply]
    | recv | replyRecv =>
      have hmove := holders_move ht .idle u
      have hnone := hpending (by simp) hnil
      simp only [recorded, finish, hq, hnone, RecvOp.after] at h ⊢
      grind [Pc.blocked, Pc.holder, update_apply]
  · rename_i d rest _ hq
    have hd := hi.sender_parked hq
    have hk' : Kept { s with pc := update s.pc d .idle } :=
      kept_relocate hk hd rfl rfl
    have hidle : update s.pc d .idle t = .idle := by
      rw [update_apply, ht, ite_self]
    exact kept_relocate (s := { s with pc := update s.pc d .idle }) hk' hidle
      (by cases op <;> rfl) rfl
  · exact kept_relocate (s := s) hk ht rfl rfl

theorem kept_wakeCaller (hpc : s.pc c = .callParked)
    (hk : ∀ u, u ≠ c → (s.pc u).blocked ≤ s.recorded u) : Kept (s.wakeCaller c msg) := by
  intro u
  have hsame := holders_move hpc .idle u
  simp only [recorded, wakeCaller] at hk ⊢
  grind [Pc.blocked, Pc.holder, update_apply]

theorem kept_clearPending (hk : Kept s) (hc : s.pendingSender = some c) (u : Task) (hu : u ≠ c) :
    (s.pc u).blocked ≤ { s with pendingSender := none }.recorded u := by
  have h := hk u
  have hclear := recorded_clearPending s u
  rw [hc] at hclear
  simp only [toList_some, count_singleton, beq_iff_eq, hu.symm, if_false] at hclear
  omega

theorem kept_release (hk : Kept s) (hplain : (s.pc t).Plain) (hc : (s.pc t).holder = some c)
    (u : Task) (hu : u ≠ c) :
    (update s.pc t .idle u).blocked ≤ { s with pc := update s.pc t .idle }.recorded u := by
  have h := hk u
  have hmove := holders_move (s := s) (t := t) rfl .idle u
  have hblocked := hplain.2.2
  simp only [recorded] at h ⊢
  grind [Pc.blocked, Pc.holder_idle, update_apply]

theorem kept_dismiss (hi : Inv s) (hk : Kept s) : Kept s.dismiss := by
  unfold dismiss
  split
  · rename_i d hd
    exact kept_wakeCaller (hi.pending_parked hd).1 (kept_clearPending (s := s) hk hd)
  · exact hk

theorem kept_relock (hi : Inv s) (hk : Kept s) (ht : s.pc t = .recvWoken op) :
    Kept (s.relock t op) := by
  cases op with
  | recv =>
    have hpc : s.dismiss.pc t = .recvWoken .recv := (dismiss_pc hi (by rw [ht]; simp)).trans ht
    exact kept_relocate (s := s.dismiss) (kept_dismiss hi hk) hpc rfl rfl
  | replyRecv =>
    exact kept_relocate (s := s) hk ht rfl rfl
  | recvCall =>
    intro u
    have h := hk u
    have hmove := holders_move ht (RecvOp.after s.pendingMsg s.pendingSender .recvCall) u
    simp only [recorded, relock, finish] at h ⊢
    grind [Pc.blocked, Pc.holder, RecvOp.after, update_apply]

theorem kept_answer (hi : Inv s) (hk : Kept s) : Kept (s.answer t msg caps) := by
  unfold answer
  split
  · rename_i d hd
    exact kept_wakeCaller (hi.pending_parked hd).1 (kept_clearPending (s := s) hk hd)
  · exact hk

theorem kept_handle {request : Sent Task} {sender : Option Task} {outcome : HandlerOutcome}
    (hi : Inv s) (hk : Kept s) (ht : s.pc t = .handling request sender)
    (hw : outcome = .writeUserFails → sender = none) :
    Kept (s.handle t request sender outcome) := by
  have hplain := plain_of ht ⟨rfl, rfl, rfl⟩
  cases sender with
  | none =>
    have hk' : Kept { s with pc := update s.pc t .idle } :=
      kept_relocate hk ht rfl rfl
    cases outcome <;> exact hk'
  | some d =>
    have hd : (s.pc t).holder = some d := by
      rw [ht]
      rfl
    have hpc := (holder_parked hi hd hplain).1
    cases outcome with
    | writeUserFails => cases hw rfl
    | createFails | tableFull => exact kept_wakeCaller hpc (kept_release hk hplain hd)
    | inserted =>
      intro u
      have h := hk u
      have hmove := holders_move ht .idle u
      simp only [recorded, handle, filterMap_append, count_append] at h ⊢
      grind [Pc.blocked, Pc.holder, update_apply]

theorem kept_swap {index : ℕ} {issued : Bool} (hk : Kept s) (ht : s.pc t = .idle) :
    Kept (s.swap t index msg issued) := by
  unfold State.swap
  split
  · rename_i d request hr
    intro u
    have h := hk u
    have hcount := count_set_sender hr u
    have hmove := holders_move ht (.replying d msg (if issued then some request else none)) u
    simp only [State.recorded] at h ⊢
    grind [Pc.blocked, Pc.holder, update_apply]
  · exact hk

theorem kept_deliver {issued : Option (Sent Task)} (hi : Inv s) (hk : Kept s)
    (ht : s.pc t = .replying c msg issued) : Kept (s.deliver t c msg issued) := by
  have hplain := plain_of ht ⟨rfl, rfl, rfl⟩
  have hc : (s.pc t).holder = some c := by
    rw [ht]
    rfl
  exact kept_wakeCaller (holder_parked hi hc hplain).1 (kept_release hk hplain hc)

end

/-! ### Replies go where they belong -/

structure Pairing (s : State Task) : Prop where
  answering : ∀ t k, s.answering t = some k → ∃ c, s.pendingSender = some c ∧ k = s.current c
  unique : ∀ t u, s.answering t ≠ none → s.answering u ≠ none → t = u
  awake_le : s.awake ≤ 1
  /-- What a woken receiver is going to find: a message that was sent, with no pending sender to
  mistake for its origin, or the message of the pending sender. -/
  fetched : ∀ r op, s.pc r = .recvWoken op →
    (callOf s.pendingMsg = none ∧ (op ≠ .replyRecv → s.pendingSender = none)) ∨
      ∃ c, s.pendingSender = some c ∧ callOf s.pendingMsg = some (s.current c) ∧ op ≠ .recv ∧
        ∀ t, s.answering t = none
  handling : ∀ t request c, s.pc t = .handling request (some c) →
    callOf request = some (s.current c)
  replying : ∀ t c msg request, s.pc t = .replying c msg (some request) →
    callOf request = some (s.current c)
  replies : ∀ reply ∈ s.replies, ∀ c, reply.sender = some c →
    callOf reply.request = some (s.current c)
  deliveries : ∀ d ∈ s.deliveries, d.issuedFor = d.delivered

section

variable {s : State Task} {t c : Task} {rest : List Task} {msg : Message} {caps : Caps}
variable {op : RecvOp} {sent : Sent Task}

omit [DecidableEq Task] in
theorem Pairing.none_answering (hp : Pairing s) (h : s.pendingSender = none) (t : Task) :
    s.answering t = none := by
  cases ht : s.answering t with
  | none => rfl
  | some k =>
    obtain ⟨c, hc, _⟩ := hp.answering t k ht
    rw [h] at hc
    cases hc

omit [DecidableEq Task] in
theorem awake_none {pc : Task → Pc Task} (h : total Pc.awake pc = 0) (r : Task) (op : RecvOp) :
    pc r ≠ .recvWoken op := by
  intro hr
  have hle := le_total Pc.awake pc r
  rw [hr, h] at hle
  cases hle

/-- The callers that records point to are not the task that acts. -/
theorem Inv.recorded_ne (hi : Inv s) (ht : s.pc t = .idle) :
    (∀ c, s.pendingSender = some c → c ≠ t) ∧
    (∀ u c, (s.pc u).holder = some c → c ≠ t) ∧
    (∀ reply ∈ s.replies, ∀ c, reply.sender = some c → c ≠ t) := by
  have hzero : s.recorded t = 0 := by
    have h := hi.recorded t
    rw [ht] at h
    exact Nat.le_zero.mp h
  unfold State.recorded at hzero
  refine ⟨?_, ?_, ?_⟩
  · intro c hc hct
    subst hct
    simp [hc] at hzero
  · intro u c hc hct
    subst hct
    have hle := le_total (fun pc : Pc Task => pc.holder.toList.count c) s.pc u
    simp only [hc, toList_some, count_singleton_self] at hle
    omega
  · intro reply hr c hc hct
    subst hct
    have hmem : c ∈ s.replies.filterMap Reply.sender := mem_filterMap.mpr ⟨reply, hr, hc⟩
    have hpos := count_pos_iff.mpr hmem
    omega

theorem pairing_submit (hi : Inv s) (hp : Pairing s) (ht : s.pc t = .idle) :
    Pairing (s.submit t msg) := by
  obtain ⟨hpending, hholder, hreply⟩ := hi.recorded_ne ht
  have hcurrent : ∀ c, c ≠ t → (s.submit t msg).current c = s.current c := by
    intro c hc
    simp only [current, submit, update_of_ne hc]
  refine ⟨?_, hp.unique, hp.awake_le, ?_, ?_, ?_, ?_, hp.deliveries⟩
  · intro u k hu
    obtain ⟨c, hc, hk⟩ := hp.answering u k hu
    exact ⟨c, hc, hk.trans (hcurrent c (hpending c hc)).symm⟩
  · intro r op hr
    cases hp.fetched r op hr with
    | inl h => exact .inl h
    | inr h =>
      obtain ⟨c, hc, hcall, hrest⟩ := h
      exact .inr ⟨c, hc, hcall.trans (congrArg some (hcurrent c (hpending c hc)).symm), hrest⟩
  · intro u request c hu
    rw [hcurrent c (hholder u c (by rw [show s.pc u = _ from hu]; rfl))]
    exact hp.handling u request c hu
  · intro u c msg request hu
    rw [hcurrent c (hholder u c (by rw [show s.pc u = _ from hu]; rfl))]
    exact hp.replying u c msg request hu
  · intro reply hr c hc
    rw [hcurrent c (hreply reply hr c hc)]
    exact hp.replies reply hr c hc

omit [DecidableEq Task] in
/-- The queues, the messages of the tasks and the logs of messages and calls do not matter. -/
theorem Pairing.congr {s' : State Task} (h : Pairing s) (hs : s' =
      { s with
        sendQueue := s'.sendQueue, recvQueue := s'.recvQueue, callQueue := s'.callQueue
        ipcMessage := s'.ipcMessage, handed := s'.handed, returned := s'.returned
        calls := s'.calls, woken := s'.woken }) : Pairing s' := by
  rw [hs]
  exact { h with }

variable {p : Pc Task}

omit [Fintype Task] in
theorem update_eq_cases {pc : Task → Pc Task} {q : Pc Task} {u : Task}
    (h : update pc t p u = q) : u = t ∧ p = q ∨ u ≠ t ∧ pc u = q := by
  by_cases hut : u = t
  · subst hut
    rw [update_self] at h
    exact .inl ⟨rfl, h⟩
  · rw [update_of_ne hut] at h
    exact .inr ⟨hut, h⟩

/-- The caller that a task at the position holds has sent the request. -/
def Asks (s : State Task) (p : Pc Task) : Prop :=
  ∀ request c, (p = .handling request (some c) ∨ ∃ msg, p = .replying c msg (some request)) →
    callOf request = some (s.current c)

theorem Pairing.moved (hp : Pairing s) (hasks : Asks s p) :
    (∀ u request c, update s.pc t p u = .handling request (some c) →
      callOf request = some (s.current c)) ∧
    ∀ u c msg request, update s.pc t p u = .replying c msg (some request) →
      callOf request = some (s.current c) := by
  refine ⟨fun u request c hu => ?_, fun u c msg request hu => ?_⟩
  · cases update_eq_cases hu with
    | inl h => exact hasks request c (.inl h.2)
    | inr h => exact hp.handling u request c h.2
  · cases update_eq_cases hu with
    | inl h => exact hasks request c (.inr ⟨msg, h.2⟩)
    | inr h => exact hp.replying u c msg request h.2

/-- A task moves between positions that are not those of woken receivers. -/
theorem Pairing.relocate (hp : Pairing s) (hold : (s.pc t).awake = 0) (hnew : p.awake = 0)
    (hasks : Asks s p) : Pairing { s with pc := update s.pc t p } := by
  have hawake : total Pc.awake (update s.pc t p) = s.awake :=
    total_update_of_eq Pc.awake s.pc (hnew.trans hold.symm)
  have hmoved := hp.moved (t := t) hasks
  refine ⟨hp.answering, hp.unique, hawake.trans_le hp.awake_le, ?_, hmoved.1, hmoved.2, hp.replies,
    hp.deliveries⟩
  intro r op hr
  cases update_eq_cases hr with
  | inl h => rw [h.2] at hnew; cases hnew
  | inr h => exact hp.fetched r op h.2

/-- A message for a waiting receiver is put into `pending_msg`, by a caller with itself as the
pending sender. -/
theorem Pairing.handOff {pending : Option Task} (hp : Pairing s) (sent : Sent Task)
    (hc : s.pc c = .recvParked op)
    (hawake : s.awake = 0) (hpending : pending = s.pendingSender ∨ s.pendingSender = none)
    (hfetched : (callOf sent = none ∧ (op ≠ .replyRecv → pending = none)) ∨
      ∃ d, pending = some d ∧ callOf sent = some (s.current d) ∧ op ≠ .recv ∧
        s.pendingSender = none) :
    Pairing { s with
      pendingMsg := sent, pendingSender := pending, pc := update s.pc c (.recvWoken op) } := by
  have hmove := total_update Pc.awake s.pc c (.recvWoken op)
  rw [hc, show total Pc.awake s.pc = 0 from hawake] at hmove
  have hmoved := hp.moved (t := c) (p := .recvWoken op) (by simp [Asks])
  refine ⟨?_, hp.unique, hmove.le, ?_, hmoved.1, hmoved.2, hp.replies, hp.deliveries⟩
  · intro u k hu
    cases hpending with
    | inl h => rw [h]; exact hp.answering u k hu
    | inr h => rw [show s.answering u = none from hp.none_answering h u] at hu; cases hu
  · intro r op' hr
    cases update_eq_cases hr with
    | inl h =>
      cases h.2
      cases hfetched with
      | inl h => exact .inl h
      | inr h =>
        obtain ⟨d, hd, hcall, hop, hnone⟩ := h
        exact .inr ⟨d, hd, hcall, hop, hp.none_answering hnone⟩
    | inr h => exact absurd h.2 (awake_none hawake r op')

theorem pairing_send (hi : Inv s) (hp : Pairing s) (ht : s.pc t = .idle)
    (ha : keepsPairing s (t, .send msg caps)) : Pairing (s.send t msg caps) := by
  have hp' : Pairing (s.submit t msg) := pairing_submit hi hp ht
  simp only [send]
  split
  · rename_i r rest hq
    obtain ⟨op, hr⟩ := hi.receiver_parked hq
    obtain ⟨hawake, hop⟩ := ha r (by rw [show s.recvQueue = _ from hq]; rfl)
    rw [handOff_eq (s := s.submit t msg) hr]
    have hfetched : op ≠ .replyRecv → s.pendingSender = none := by
      intro hne
      rw [hr] at hop
      cases hop with
      | inl h => cases h; exact absurd rfl hne
      | inr h => exact h
    have h := hp'.handOff (c := r)
      ⟨some ((s.submit t msg).current t), false, { msg with caps }⟩ hr hawake
      (.inl rfl) (.inl ⟨rfl, hfetched⟩)
    exact h.congr rfl
  · have h := hp'.relocate (t := t) (p := .sendParked) (congrArg Pc.awake ht) rfl (by simp [Asks])
    exact h.congr rfl

theorem pairing_call (hi : Inv s) (hp : Pairing s) (ht : s.pc t = .idle)
    (ha : keepsPairing s (t, .call msg caps)) : Pairing (s.call t msg caps) := by
  have hp' : Pairing (s.submit t msg) := pairing_submit hi hp ht
  simp only [call]
  split
  · rename_i r rest hq
    obtain ⟨op, hr⟩ := hi.receiver_parked hq
    obtain ⟨hawake, hop, hnone⟩ := ha r (by rw [show s.recvQueue = _ from hq]; rfl)
    rw [handOff_eq (s := s.submit t msg) hr]
    have htr : t ≠ r := by
      intro htr
      rw [← htr, ht] at hr
      cases hr
    have hne : op ≠ .recv := by
      intro hop'
      rw [hop'] at hr
      exact hop hr
    have h := hp'.handOff (c := r)
      ⟨some ((s.submit t msg).current t), true, { msg with caps }⟩ hr hawake
      (.inr hnone) (.inr ⟨t, rfl, rfl, hne, hnone⟩)
    have hidle : (update (s.submit t msg).pc r (.recvWoken op) t).awake = 0 := by
      rw [update_of_ne htr]
      exact congrArg Pc.awake ht
    have h := h.relocate (t := t) (p := .callParked) hidle rfl (by simp [Asks])
    exact h.congr rfl
  · have h := hp'.relocate (t := t) (p := .callParked) (congrArg Pc.awake ht) rfl (by simp [Asks])
    exact h.congr rfl

/-- A receive operation ends with a message from the queues or from `pending_msg`. -/
theorem Pairing.finish (hp : Pairing s) (op : RecvOp) (sent : Sent Task) (sender : Option Task)
    (hold : (s.pc t).awake = 0)
    (hsender : op = .recvCall → ∀ c, sender = some c → callOf sent = some (s.current c))
    (hcall : op ≠ .recvCall → ∀ k, callOf sent = some k →
      (∃ c, s.pendingSender = some c ∧ k = s.current c) ∧ ∀ u, s.answering u = none)
    (hawake : op ≠ .recvCall → callOf sent ≠ none → s.awake = 0) :
    Pairing (s.finish t op sent sender) := by
  cases op with
  | recvCall =>
    have hsame : update s.answering t (s.answering t) = s.answering := update_eq_self ..
    have h := hp.relocate (t := t) (p := .handling sent sender) hold rfl (by
      rintro request c (hc | ⟨msg, hc⟩)
      · cases hc
        exact hsender rfl c rfl
      · cases hc)
    simp only [State.finish, RecvOp.answering, RecvOp.after, hsame]
    exact h.congr rfl
  | recv | replyRecv =>
    have h := hp.relocate (t := t) (p := .idle) hold rfl (by simp [Asks])
    have hmove : total Pc.awake (update s.pc t .idle) = s.awake :=
      total_update_of_eq Pc.awake s.pc hold.symm
    cases hk : callOf sent with
    | none =>
      have hsame : update s.answering t ((callOf sent).or (s.answering t)) = s.answering := by
        rw [hk]
        exact update_eq_self ..
      simp only [State.finish, RecvOp.answering, RecvOp.after, hsame]
      exact h.congr rfl
    | some k =>
      obtain ⟨hpending, hnone⟩ := hcall (by simp) k hk
      have hzero := hawake (by simp) (by simp [hk])
      have hor : (some k).or (s.answering t) = some k := rfl
      simp only [State.finish, RecvOp.answering, RecvOp.after, hk, hor]
      have honly : ∀ u, update s.answering t (some k) u ≠ none → u = t := by
        intro u hu
        by_contra hut
        rw [update_of_ne hut, hnone u] at hu
        exact hu rfl
      refine { h with answering := ?_, unique := ?_, fetched := ?_ }
      · intro u k' hu
        have hu : update s.answering t (some k) u = some k' := hu
        have hut := honly u (by simp [hu])
        subst hut
        rw [update_self] at hu
        cases hu
        exact hpending
      · exact fun u v hu hv => (honly u hu).trans (honly v hv).symm
      · intro r op hr
        exact absurd hr (awake_none (hmove.trans hzero) r op)

omit [DecidableEq Task] in
theorem Pairing.setPending (hp : Pairing s) (hawake : s.awake = 0)
    (hnone : s.pendingSender = none) :
    Pairing { s with pendingMsg := sent, pendingSender := some c } := by
  have hanswering := hp.none_answering hnone
  refine { hp with answering := ?_, fetched := ?_ }
  · intro u k hu
    rw [show s.answering u = none from hanswering u] at hu
    cases hu
  · intro r op hr
    exact absurd hr (awake_none hawake r op)

theorem pairing_receive (hi : Inv s) (hp : Pairing s) (ht : s.pc t = .idle)
    (hpending : op ≠ .recvCall → s.callQueue ≠ [] → s.awake = 0 ∧ s.pendingSender = none) :
    Pairing (s.receive t op caps) := by
  have hidle : (s.pc t).awake = 0 := congrArg Pc.awake ht
  simp only [receive]
  split
  · rename_i d rest hq
    have hnil : s.callQueue ≠ [] := by simp [hq]
    cases op with
    | recvCall =>
      have h := hp.finish .recvCall (queued s d true caps) (some d) hidle
        (fun _ c hc => by cases hc; rfl) (fun h => absurd rfl h) (fun h => absurd rfl h)
      exact h.congr rfl
    | recv | replyRecv =>
      obtain ⟨hawake, hnone⟩ := hpending (by simp) hnil
      have hset : Pairing
          { s with pendingMsg := queued s d true caps, pendingSender := some d } :=
        hp.setPending hawake hnone
      have h := fun op => hset.finish op (queued s d true caps) none hidle
        (fun _ _ hc => by cases hc)
        (fun _ k hk => ⟨⟨d, rfl, (Option.some.inj hk).symm⟩, hp.none_answering hnone⟩)
        (fun _ _ => hawake)
      exact (h _).congr rfl
  · rename_i d rest _ hq
    have hd := hi.sender_parked hq
    have hp' := hp.relocate (t := d) (p := .idle) (by rw [hd]; rfl) rfl (by simp [Asks])
    have hidle' : (update s.pc d .idle t).awake = 0 := by
      rw [update_apply, ht, ite_self]
      rfl
    have h := hp'.finish op (queued s d false caps) none hidle' (fun _ _ hc => by cases hc)
      (fun _ k hk => by cases hk) (fun _ hk => absurd rfl hk)
    exact h.congr rfl
  · exact (hp.relocate (t := t) (p := .recvParked op) hidle rfl (by simp [Asks])).congr rfl

/-- A woken receiver gives up its position; it was the only one. -/
theorem Pairing.arrive (hp : Pairing s) (ht : s.pc t = .recvWoken op) :
    Pairing { s with pc := update s.pc t .idle } ∧
      { s with pc := update s.pc t .idle }.awake = 0 := by
  have hmove := total_update Pc.awake s.pc t .idle
  rw [ht] at hmove
  have hle := hp.awake_le
  have hzero : { s with pc := update s.pc t .idle }.awake = 0 := by
    simp only [awake, Pc.awake] at hmove hle ⊢
    omega
  have hmoved := hp.moved (t := t) (p := .idle) (by simp [Asks])
  refine ⟨⟨hp.answering, hp.unique, by omega, ?_, hmoved.1, hmoved.2, hp.replies, hp.deliveries⟩,
    hzero⟩
  exact fun r op hr => absurd hr (awake_none hzero r op)

omit [Fintype Task] in
theorem finish_idle (s : State Task) (t : Task) (op : RecvOp) (sent : Sent Task)
    (sender : Option Task) :
    { s with pc := update s.pc t .idle }.finish t op sent sender = s.finish t op sent sender := by
  simp only [finish, update_idem]

omit [DecidableEq Task] in
theorem Pairing.clearPending (hp : Pairing s) (hnone : ∀ u, s.answering u = none)
    (hawake : s.awake = 0) : Pairing { s with pendingSender := none } := by
  refine { hp with answering := ?_, fetched := ?_ }
  · intro u k hu
    rw [show s.answering u = none from hnone u] at hu
    cases hu
  · intro r op hr
    exact absurd hr (awake_none hawake r op)

theorem pairing_relock (hp : Pairing s) (ht : s.pc t = .recvWoken op) : Pairing (s.relock t op) := by
  obtain ⟨hp', hzero⟩ := hp.arrive ht
  have hidle : (update s.pc t .idle t).awake = 0 := by
    rw [update_self]
    rfl
  cases hp.fetched t op ht with
  | inl hsent =>
    obtain ⟨hcall, hnone⟩ := hsent
    have h := hp'.finish op s.pendingMsg none hidle (fun _ _ hc => by cases hc)
      (fun _ k hk => by rw [hcall] at hk; cases hk) (fun _ hk => absurd hcall hk)
    rw [finish_idle] at h
    cases op with
    | recv =>
      simp only [relock, dismiss, hnone (by simp)]
      exact h
    | replyRecv => exact h
    | recvCall =>
      have hpending := hnone (by simp)
      have hs : { s with pendingSender := none } = s := by
        rw [← hpending]
      simp only [relock, hpending, hs]
      exact h
  | inr hcalled =>
    obtain ⟨c, hc, hcall, hop, hnone⟩ := hcalled
    cases op with
    | recv => exact absurd rfl hop
    | replyRecv =>
      have h := hp'.finish .replyRecv s.pendingMsg none hidle (fun _ _ hc => by cases hc)
        (fun _ k hk => ⟨⟨c, hc, Option.some.inj (hk.symm.trans hcall)⟩, hnone⟩)
        (fun _ _ => hzero)
      rw [finish_idle] at h
      exact h
    | recvCall =>
      have h := (hp'.clearPending hnone hzero).finish .recvCall s.pendingMsg (some c) hidle
        (fun _ d hd => by cases hd; exact hcall) (fun h => absurd rfl h)
        (fun h => absurd rfl h)
      have hs := finish_idle { s with pendingSender := none } t .recvCall s.pendingMsg (some c)
      rw [hs] at h
      simp only [relock, hc]
      exact h

theorem Pairing.wakeCaller (hp : Pairing s) (hc : s.pc c = .callParked) :
    Pairing (s.wakeCaller c msg) := by
  have h := hp.relocate (t := c) (p := .idle) (by rw [hc]; rfl) rfl (by simp [Asks])
  exact h.congr rfl

theorem pairing_answer (hi : Inv s) (hp : Pairing s) (ha : answersPending s t) :
    Pairing (s.answer t msg caps) := by
  unfold answer
  split
  · rename_i d hd
    have htd := ha d hd
    have hpc := (hi.pending_parked hd).1
    have hothers : ∀ u, u ≠ t → s.answering u = none := by
      intro u hut
      by_contra hu
      exact hut (hp.unique u t hu (by simp [htd]))
    have hnone : ∀ u, update s.answering t none u = none := by
      intro u
      rw [update_apply]
      split
      · rfl
      · exact hothers u ‹_›
    have hp' : Pairing { s with
        pendingSender := none, answering := update s.answering t none
        deliveries := s.deliveries ++ [Delivery.mk (s.answering t) (some (s.current d))] } := by
      refine ⟨?_, ?_, hp.awake_le, ?_, hp.handling, hp.replying, hp.replies, ?_⟩
      · intro u k hu
        cases (hnone u).symm.trans hu
      · intro u v hu
        exact absurd (hnone u) hu
      · intro r op hr
        cases hp.fetched r op hr with
        | inl h => exact .inl ⟨h.1, fun _ => rfl⟩
        | inr h =>
          obtain ⟨_, _, _, _, hnone⟩ := h
          rw [hnone t] at htd
          cases htd
      · exact forall_mem_append.mpr ⟨hp.deliveries, forall_mem_singleton.mpr htd⟩
    exact hp'.wakeCaller hpc
  · rename_i hd
    refine { hp with deliveries := ?_ }
    exact forall_mem_append.mpr
      ⟨hp.deliveries, forall_mem_singleton.mpr (hp.none_answering hd t)⟩

theorem pairing_handle {request : Sent Task} {sender : Option Task} {outcome : HandlerOutcome}
    (hi : Inv s) (hp : Pairing s) (ht : s.pc t = .handling request sender) :
    Pairing (s.handle t request sender outcome) := by
  have hplain := plain_of ht ⟨rfl, rfl, rfl⟩
  have h := hp.relocate (t := t) (p := .idle) (by rw [ht]; rfl) rfl (by simp [Asks])
  cases sender with
  | none => cases outcome <;> exact h
  | some d =>
    have hpc := (holder_parked hi (t := t) (c := d) (by rw [ht]; rfl) hplain).1
    cases outcome with
    | writeUserFails => exact h
    | createFails | tableFull => exact h.wakeCaller hpc
    | inserted =>
      refine { h with replies := ?_ }
      intro reply hr c hc
      cases mem_append.mp hr with
      | inl hr => exact hp.replies reply hr c hc
      | inr hr =>
        rw [mem_singleton.mp hr] at hc ⊢
        cases hc
        exact hp.handling t request d ht

theorem pairing_swap {index : ℕ} {issued : Bool} (hp : Pairing s) (ht : s.pc t = .idle) :
    Pairing (s.swap t index msg issued) := by
  unfold State.swap
  split
  · rename_i d request hr
    have hmem := mem_of_getElem? hr
    have h := hp.relocate (t := t) (p := .replying d msg (if issued then some request else none))
      (by rw [ht]; rfl) rfl (by
        rintro asked c (hc | ⟨msg, hc⟩)
        · cases hc
        · cases issued with
          | true =>
            cases hc
            exact hp.replies _ hmem d rfl
          | false => cases hc)
    refine { h with replies := ?_ }
    intro reply hr c hc
    cases mem_or_eq_of_mem_set hr with
    | inl hr => exact hp.replies reply hr c hc
    | inr hr =>
      rw [hr] at hc
      cases hc
  · exact hp

theorem pairing_deliver {issued : Option (Sent Task)} (hi : Inv s) (hp : Pairing s)
    (ht : s.pc t = .replying c msg issued) : Pairing (s.deliver t c msg issued) := by
  have hplain := plain_of ht ⟨rfl, rfl, rfl⟩
  have hpc := (holder_parked hi (t := t) (c := c) (by rw [ht]; rfl) hplain).1
  have h := hp.relocate (t := t) (p := .idle) (by rw [ht]; rfl) rfl (by simp [Asks])
  have h' : Pairing { s with
      pc := update s.pc t .idle
      deliveries := s.deliveries ++ issued.toList.map fun request =>
        Delivery.mk (callOf request) (some (s.current c)) } := by
    refine { h with deliveries := ?_ }
    intro e he
    cases mem_append.mp he with
    | inl he => exact hp.deliveries e he
    | inr he =>
      obtain ⟨request, hr, he⟩ := List.mem_map.mp he
      rw [← he]
      rw [mem_toList] at hr
      cases hr
      exact hp.replying t c msg request ht
  exact h'.wakeCaller hpc

omit [Fintype Task] in
theorem answer_pending : (s.answer t msg caps).pendingSender = none := by
  unfold answer
  split
  · rfl
  · assumption

end

/-! ### Runs -/

variable {l : Task × Action}

theorem kept_next {s s' : State Task} (hi : Inv s) (hk : Kept s)
    (ha : keepsPairing s l) (h : s.next l = some s') : Kept s' := by
  obtain ⟨t, action⟩ := l
  cases next_stepped h with
  | send _ _ ht => exact kept_send hi hk ht
  | call _ _ ht =>
    refine kept_call hi hk ht fun hq => ?_
    obtain ⟨r, rest, hr⟩ := exists_cons_of_ne_nil hq
    exact (ha r (by rw [hr]; rfl)).2.2
  | recv _ ht => exact kept_receive hi hk ht fun _ hq => (ha hq).2
  | recvCall _ ht => exact kept_receive hi hk ht fun h => absurd rfl h
  | reply _ _ _ => exact kept_answer hi hk
  | replyRecv msg replyCaps _ ht =>
    have hidle : (s.answer t msg replyCaps).pc t = .idle :=
      (answer_pc hi (by rw [ht]; simp)).trans ht
    exact kept_receive (inv_answer hi) (kept_answer hi hk) hidle fun _ _ => answer_pending
  | relock _ ht => exact kept_relock hi hk ht
  | handle _ _ _ ht =>
    refine kept_handle hi hk ht fun hw => ?_
    have hnone := ha hw
    rwa [ht] at hnone
  | replySend _ _ _ ht => exact kept_swap hk ht
  | replyDestroy _ ht => exact kept_swap hk ht
  | deliver _ _ _ ht => exact kept_deliver hi hk ht

theorem pairing_next {s s' : State Task} (hi : Inv s) (hp : Pairing s)
    (ha : keepsPairing s l) (h : s.next l = some s') : Pairing s' := by
  obtain ⟨t, action⟩ := l
  cases next_stepped h with
  | send _ _ ht => exact pairing_send hi hp ht ha
  | call _ _ ht => exact pairing_call hi hp ht ha
  | recv _ ht => exact pairing_receive hi hp ht fun _ hq => ha hq
  | recvCall _ ht => exact pairing_receive hi hp ht fun h => absurd rfl h
  | reply _ _ _ => exact pairing_answer hi hp ha
  | replyRecv msg replyCaps _ ht =>
    obtain ⟨hawake, _, _, _, hcalls⟩ := answer_frame hi t msg replyCaps
    have hidle : (s.answer t msg replyCaps).pc t = .idle :=
      (answer_pc hi (by rw [ht]; simp)).trans ht
    refine pairing_receive (inv_answer hi) (pairing_answer hi hp ha.1) hidle fun _ hq => ?_
    rw [hcalls] at hq
    exact ⟨hawake.trans (ha.2 hq), answer_pending⟩
  | relock _ ht => exact pairing_relock hp ht
  | handle _ _ _ ht => exact pairing_handle hi hp ht
  | replySend _ _ _ ht => exact pairing_swap hp ht
  | replyDestroy _ ht => exact pairing_swap hp ht
  | deliver _ _ _ ht => exact pairing_deliver hi hp ht

omit [DecidableEq Task] in
theorem pairing_init : Pairing (init : State Task) := by
  refine ⟨?_, ?_, ?_, ?_, ?_, ?_, ?_, ?_⟩
  all_goals simp [init, awake, total, Pc.awake]

theorem paired_of_pairing {s : State Task} (hi : Inv s) (hk : Kept s) (hp : Pairing s) :
    Paired s := by
  refine ⟨?_, hi.woken_nodup, ?_, hp.deliveries⟩
  · intro t ht
    have hle := hi.recorded t
    have hge := hk t
    rw [ht] at hle hge
    exact le_antisymm hle hge
  · intro t k hcall
    constructor
    · intro hwoken hblocked
      have h := hi.ended t k hwoken
      rw [hblocked.1, hblocked.2] at h
      simp only [Pc.blocked] at h
      omega
    · intro hnot
      cases (hi.called t k hcall).2 with
      | inl h => exact h
      | inr h => exact absurd h hnot

/-- In a run whose steps all meet `keepsPairing` every blocked caller is recorded once, ended
once, and reached by the reply to its message. -/
theorem calls_paired {s : State Task} (h : (system Task).Reachable keepsPairing s) :
    Paired s := by
  have hall : Inv s ∧ Kept s ∧ Pairing s := by
    refine @System.Reachable.invariant _ _ _ _ (fun s => Inv s ∧ Kept s ∧ Pairing s) ?_ ?_ s h
    · intro s hs
      rw [show s = init from hs]
      exact ⟨inv_init, fun t => Nat.zero_le _, pairing_init⟩
    · intro s l s' hi ha hs
      obtain ⟨hi, hk, hp⟩ := hi
      exact ⟨inv_next hi hs, kept_next hi hk ha hs, pairing_next hi hp ha hs⟩
  exact paired_of_pairing hall.1 hall.2.1 hall.2.2

instance (s : State Task) (t : Task) : Decidable (answersPending s t) :=
  inferInstanceAs (Decidable (∀ c ∈ s.pendingSender, _))

instance (s : State Task) : (l : Task × Action) → Decidable (keepsPairing s l)
  | (_, .send _ _) | (_, .call _ _) => inferInstanceAs (Decidable (∀ r ∈ s.recvQueue.head?, _))
  | (_, .recv _) => inferInstanceAs (Decidable (_ → _ ∧ _))
  | (t, .reply _ _) => inferInstanceAs (Decidable (answersPending s t))
  | (_, .replyRecv _ _ _) => inferInstanceAs (Decidable (_ ∧ (_ → _)))
  | (_, .handle _) => inferInstanceAs (Decidable (_ → _))
  | (_, .recvCall _) | (_, .relock) | (_, .replySend _ _ _) | (_, .replyDestroy _)
  | (_, .deliver) => inferInstanceAs (Decidable True)

/-- A server waits in `replyRecv`, is called and replies. -/
theorem calls_paired_server :
    ∃ s : State (Fin 2), s.calls = [(1, 1)] ∧ s.deliveries.getLast? = some ⟨some (1, 1), some (1, 1)⟩ ∧
      Paired s := by
  refine ⟨_, ?_, ?_, calls_paired (System.restrict_reachable
    [(0, Action.replyRecv {} ⟨[0, 0, 0, 0], rfl⟩ ⟨[0, 0, 0, 0], rfl⟩),
      (1, .call { tag := 7 } ⟨[0, 0, 0, 0], rfl⟩), (0, .relock),
      (0, .reply { tag := 8 } ⟨[0, 0, 0, 0], rfl⟩)] (.init rfl) rfl)⟩
  · rfl
  · rfl

/-- Two callers wait and a server receives twice before it replies: the first caller is blocked
and recorded nowhere. -/
theorem caller_forgotten :
    ∃ s : State (Fin 3), (system (Fin 3)).Reachable anyStep s ∧
      s.pc 1 = .callParked ∧ s.recorded 1 = 0 ∧ ¬ Paired s := by
  refine ⟨_, System.runNext_reachable
    [(1, Action.call { tag := 1 } ⟨[0, 0, 0, 0], rfl⟩), (2, .call { tag := 2 } ⟨[0, 0, 0, 0], rfl⟩),
      (0, .recv ⟨[0, 0, 0, 0], rfl⟩), (0, .recv ⟨[0, 0, 0, 0], rfl⟩)] (.init rfl) rfl, ?_, ?_, ?_⟩
  · rfl
  · decide
  · intro h
    exact absurd (h.recorded 1 rfl) (by decide)

end Innigkeit.Capabilities.Endpoint
