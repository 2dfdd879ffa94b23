import Innigkeit.Capabilities.Endpoint
import Innigkeit.Library.Counting

/-!
What every run of an endpoint keeps, however its operations are used. The wait
queues hold the parked senders and receivers, a task blocked in `call` is
recorded at most once and no other task is, no message is handed to a receiver
twice, and a call is ended at most once.
-/

namespace Innigkeit.Capabilities.Endpoint

open Function Counting List Option State Pc

variable {Task : Type*}

namespace Pc

def sends : Pc Task → ℕ
  | .sendParked => 1
  | _ => 0

def receives : Pc Task → ℕ
  | .recvParked _ => 1
  | _ => 0

def blocked : Pc Task → ℕ
  | .callParked => 1
  | _ => 0

/-- The caller that a handler has taken on. -/
def holder : Pc Task → Option Task
  | .handling _ sender => sender
  | .replying caller _ _ => some caller
  | _ => none

theorem holder_idle : (.idle : Pc Task).holder = none := rfl

def Plain (pc : Pc Task) : Prop := pc.sends = 0 ∧ pc.receives = 0 ∧ pc.blocked = 0

theorem receives_pos {pc : Pc Task} (h : 0 < pc.receives) : ∃ op, pc = .recvParked op := by
  cases pc with
  | recvParked op => exact ⟨op, rfl⟩
  | _ => cases h

theorem sends_pos {pc : Pc Task} (h : 0 < pc.sends) : pc = .sendParked := by
  cases pc with
  | sendParked => rfl
  | _ => cases h

theorem blocked_pos {pc : Pc Task} (h : 0 < pc.blocked) : pc = .callParked := by
  cases pc with
  | callParked => rfl
  | _ => cases h

end Pc

variable [DecidableEq Task]

/-! ### The invariant -/

variable [Fintype Task]

/-- How often a task is recorded as a caller that waits for its reply. -/
def State.recorded (s : State Task) (t : Task) : ℕ :=
  s.callQueue.count t + s.pendingSender.toList.count t +
    total (fun pc => pc.holder.toList.count t) s.pc + (s.replies.filterMap Reply.sender).count t

/-- How often a task stands in a queue with a message that no receiver has taken. -/
def State.waiting (s : State Task) (t : Task) : ℕ := s.sendQueue.count t + s.callQueue.count t

structure Inv (s : State Task) : Prop where
  sends : ∀ t, s.sendQueue.count t = (s.pc t).sends
  receives : ∀ t, s.recvQueue.count t = (s.pc t).receives
  recorded : ∀ t, s.recorded t ≤ (s.pc t).blocked
  /-- A message that was handed over is not the one its sender waits with. -/
  numbered : ∀ m ∈ s.handed, ∃ t k, m.origin = some (t, k) ∧ k + s.waiting t ≤ s.number t
  handed_nodup : (s.handed.map Sent.origin).Nodup
  /-- A call that was ended is not the one its caller is blocked in. -/
  ended : ∀ t k, (t, k) ∈ s.woken → k + (s.pc t).blocked ≤ s.number t
  woken_nodup : s.woken.Nodup
  called : ∀ t k, (t, k) ∈ s.calls →
    k ≤ s.number t ∧ ((t, k) ∈ s.woken ∨ s.pc t = .callParked ∧ k = s.number t)

theorem inv_init : Inv (init : State Task) := by
  refine ⟨?_, ?_, ?_, ?_, ?_, ?_, ?_, ?_⟩
  all_goals simp [init, sends, receives, recorded, total, holder]

/-! ### The parts of the operations keep the invariant -/

attribute [local grind =] sends receives blocked holder update_apply

section

variable {s : State Task} {t c : Task} {rest : List Task} {msg : Message} {caps : Caps}
variable {op : RecvOp} {sent : Sent Task}

/-- The records that the positions hold, when a task moves. -/
theorem holders_move {q : Pc Task} (ht : s.pc t = q) (p : Pc Task) (u : Task) :
    total (fun pc => pc.holder.toList.count u) (update s.pc t p) + q.holder.toList.count u =
      total (fun pc => pc.holder.toList.count u) s.pc + p.holder.toList.count u := by
  rw [← ht]
  exact total_update ..

section

variable (hi : Inv s)
include hi

theorem Inv.waiting_idle (ht : s.pc t = .idle) : s.waiting t = 0 := by
  have hsends := hi.sends t
  have hrecorded := hi.recorded t
  rw [ht] at hsends hrecorded
  simp only [Pc.sends, Pc.blocked, State.recorded] at hsends hrecorded
  unfold State.waiting
  omega

theorem Inv.receiver_parked (hq : s.recvQueue = c :: rest) : ∃ op, s.pc c = .recvParked op := by
  apply receives_pos
  rw [← hi.receives c, hq]
  simp

theorem Inv.sender_parked (hq : s.sendQueue = c :: rest) : s.pc c = .sendParked := by
  apply sends_pos
  rw [← hi.sends c, hq]
  simp

theorem Inv.caller_parked (h : 0 < s.recorded c) : s.pc c = .callParked ∧ s.recorded c = 1 := by
  have hle := hi.recorded c
  have hpc : s.pc c = .callParked := blocked_pos (by omega)
  rw [hpc] at hle
  exact ⟨hpc, le_antisymm hle h⟩

theorem Inv.submit (ht : s.pc t = .idle) : Inv (s.submit t msg) := by
  refine { hi with numbered := ?_, ended := ?_, called := ?_ }
  · intro m hm
    obtain ⟨u, k, ho, hk⟩ := hi.numbered m hm
    refine ⟨u, k, ho, ?_⟩
    simp only [State.submit, State.waiting] at hk ⊢
    grind
  · intro u k hk
    have h := hi.ended u k hk
    simp only [State.submit]
    grind
  · intro u k hk
    have h := hi.called u k hk
    simp only [State.submit]
    grind

theorem Inv.submit_fresh :
    ∀ m ∈ (s.submit t msg).handed, m.origin ≠ some ((s.submit t msg).current t) := by
  intro m hm
  obtain ⟨u, k, ho, hk⟩ := hi.numbered m hm
  simp only [State.submit, State.current]
  grind

theorem Inv.submit_ended : (s.submit t msg).current t ∉ (s.submit t msg).woken := by
  intro hmem
  have h := hi.ended _ _ hmem
  simp only [State.submit] at h
  grind

end

omit [Fintype Task] in
theorem handOff_eq (hr : s.pc c = .recvParked op) :
    s.handOff c rest sent =
      { s with
        recvQueue := rest, pendingMsg := sent, handed := s.handed ++ [sent]
        pc := update s.pc c (.recvWoken op) } := by
  simp only [handOff, wakeReceiver, hr]

section

variable (hi : Inv s)
include hi

theorem Inv.handOff (hq : s.recvQueue = c :: rest) (ht : s.pc t = .idle)
    (ho : sent.origin = some (s.current t)) (hfresh : ∀ m ∈ s.handed, m.origin ≠ sent.origin) :
    Inv (s.handOff c rest sent) := by
  obtain ⟨op, hr⟩ := hi.receiver_parked hq
  have hidle := hi.waiting_idle ht
  rw [handOff_eq hr]
  refine ⟨?_, ?_, ?_, ?_, ?_, ?_, hi.woken_nodup, ?_⟩
  · intro u
    have h := hi.sends u
    grind
  · intro u
    have h := hi.receives u
    grind
  · intro u
    have h := hi.recorded u
    have hsame := holders_move hr (.recvWoken op) u
    simp only [State.recorded] at h ⊢
    grind
  · intro m hm
    have h := hi.numbered m
    simp only [State.current, State.waiting] at ho hidle h ⊢
    grind
  · have hnodup := hi.handed_nodup
    grind
  · intro u k hk
    have h := hi.ended u k hk
    grind
  · intro u k hk
    have h := hi.called u k hk
    grind

theorem Inv.parkSend (ht : s.pc t = .idle)
    (hfresh : ∀ m ∈ s.handed, m.origin ≠ some (s.current t)) :
    Inv { s with sendQueue := s.sendQueue ++ [t], pc := update s.pc t .sendParked } := by
  refine ⟨?_, ?_, ?_, ?_, hi.handed_nodup, ?_, hi.woken_nodup, ?_⟩
  · intro u
    have h := hi.sends u
    grind
  · intro u
    have h := hi.receives u
    grind
  · intro u
    have h := hi.recorded u
    have hsame := holders_move ht .sendParked u
    simp only [State.recorded] at h ⊢
    grind
  · intro m hm
    obtain ⟨u, k, ho, hk⟩ := hi.numbered m hm
    refine ⟨u, k, ho, ?_⟩
    have hidle := hi.waiting_idle ht
    have h := hfresh m hm
    simp only [State.current, State.waiting] at h hidle hk ⊢
    grind
  · intro u k hk
    have h := hi.ended u k hk
    grind
  · intro u k hk
    have h := hi.called u k hk
    grind

theorem Inv.block (ht : s.pc t = .idle) (hended : s.current t ∉ s.woken)
    {queue : List Task} {pending : Option Task}
    (hrecords : ∀ u, queue.count u + pending.toList.count u ≤
      s.callQueue.count u + s.pendingSender.toList.count u + [t].count u)
    (hnumbered : ∀ m ∈ s.handed, ∃ u k, m.origin = some (u, k) ∧
      k + (s.sendQueue.count u + queue.count u) ≤ s.number u) :
    Inv { s with
      callQueue := queue, pendingSender := pending, calls := s.calls ++ [s.current t]
      pc := update s.pc t .callParked } := by
  refine ⟨?_, ?_, ?_, hnumbered, hi.handed_nodup, ?_, hi.woken_nodup, ?_⟩
  · intro u
    have h := hi.sends u
    grind
  · intro u
    have h := hi.receives u
    grind
  · intro u
    have h := hi.recorded u
    have hle := hrecords u
    have hsame := holders_move ht .callParked u
    simp only [State.recorded] at h ⊢
    grind
  · intro u k hk
    have h := hi.ended u k hk
    simp only [State.current] at hended
    grind
  · intro u k hk
    have h := hi.called u k
    simp only [State.current] at hk
    grind

theorem Inv.relocate {p : Pc Task} (hold : (s.pc t).Plain) (hnew : p.Plain)
    (hrecords : ∀ u, p.holder.toList.count u + s.recorded u ≤
      (s.pc t).holder.toList.count u + (s.pc u).blocked) :
    Inv { s with pc := update s.pc t p } := by
  obtain ⟨hsends, hreceives, hblocked⟩ := hold
  obtain ⟨hsends', hreceives', hblocked'⟩ := hnew
  refine ⟨?_, ?_, ?_, hi.numbered, hi.handed_nodup, ?_, hi.woken_nodup, ?_⟩
  · intro u
    have h := hi.sends u
    grind
  · intro u
    have h := hi.receives u
    grind
  · intro u
    have h := hrecords u
    have hmove := holders_move (s := s) (t := t) rfl p u
    simp only [State.recorded] at h ⊢
    grind
  · intro u k hk
    have h := hi.ended u k hk
    grind
  · intro u k hk
    have h := hi.called u k hk
    grind

/-- A task leaves a position that holds nobody, or a handler lets go of its caller. -/
theorem Inv.release (hold : (s.pc t).Plain) : Inv { s with pc := update s.pc t .idle } := by
  refine hi.relocate hold ⟨rfl, rfl, rfl⟩ fun u => ?_
  have h := hi.recorded u
  simp only [holder, toList_none, count_nil]
  omega

theorem Inv.finish {sender : Option Task} (hold : (s.pc t).Plain)
    (hsender : ∀ c, sender = some c → s.pc c = .callParked ∧ s.recorded c = 0) :
    Inv (s.finish t op sent sender) := by
  have hi' : Inv { s with pc := update s.pc t (op.after sent sender) } := by
    refine hi.relocate hold (by cases op <;> exact ⟨rfl, rfl, rfl⟩) fun u => ?_
    have h := hi.recorded u
    cases op with
    | recvCall =>
      cases sender with
      | none => simpa [RecvOp.after, holder] using Nat.le_trans h (Nat.le_add_left ..)
      | some c =>
        obtain ⟨hpc, hzero⟩ := hsender c rfl
        simp only [RecvOp.after, holder]
        grind
    | _ => simpa [RecvOp.after, holder] using Nat.le_trans h (Nat.le_add_left ..)
  exact { hi' with }

end

theorem recorded_clearPending (s : State Task) (u : Task) :
    { s with pendingSender := none }.recorded u + s.pendingSender.toList.count u =
      s.recorded u := by
  simp only [recorded, toList_none, count_nil]
  omega

theorem Inv.clearPending (hi : Inv s) : Inv { s with pendingSender := none } := by
  refine { hi with recorded := fun u => ?_ }
  have h := hi.recorded u
  have hclear := recorded_clearPending s u
  simp only at hclear ⊢
  omega

theorem Inv.pending_parked (hi : Inv s) (hc : s.pendingSender = some c) :
    s.pc c = .callParked ∧ { s with pendingSender := none }.recorded c = 0 := by
  have hclear := recorded_clearPending s c
  rw [hc] at hclear
  simp only [toList_some, count_cons_self, count_nil] at hclear
  obtain ⟨hpc, hone⟩ := hi.caller_parked (c := c) (by omega)
  exact ⟨hpc, by omega⟩

theorem Inv.setPending (hi : Inv s) (hpc : s.pc c = .callParked)
    (hzero : { s with pendingSender := none }.recorded c = 0) :
    Inv { s with pendingMsg := sent, pendingSender := some c } := by
  refine { hi with recorded := fun u => ?_ }
  have h := hi.clearPending.recorded u
  simp only [State.recorded, toList_none, count_nil] at hzero h ⊢
  grind

theorem Inv.wakeCaller (hi : Inv s) (msg : Message) (hpc : s.pc c = .callParked)
    (hzero : s.recorded c = 0) :
    Inv (s.wakeCaller c msg) := by
  refine ⟨?_, ?_, ?_, hi.numbered, hi.handed_nodup, ?_, ?_, ?_⟩
  · intro u
    have h := hi.sends u
    simp only [State.wakeCaller]
    grind
  · intro u
    have h := hi.receives u
    simp only [State.wakeCaller]
    grind
  · intro u
    have h := hi.recorded u
    have hsame := holders_move hpc .idle u
    simp only [State.recorded, State.wakeCaller] at hzero h ⊢
    grind
  · intro u k hk
    have h := hi.ended u k
    simp only [State.wakeCaller, State.current] at hk ⊢
    grind
  · have h := hi.ended c (s.number c)
    have hnodup := hi.woken_nodup
    simp only [State.wakeCaller, State.current]
    grind
  · intro u k hk
    have h := hi.called u k hk
    simp only [State.wakeCaller, State.current]
    grind

/-- The message that a receive operation takes from a parked sender or caller. -/
def queued (s : State Task) (sender : Task) (isCall : Bool) (caps : Caps) : Sent Task :=
  ⟨some (s.current sender), isCall, { s.ipcMessage sender with caps }⟩

theorem Inv.dequeueCaller (hi : Inv s) (caps : Caps) (hq : s.callQueue = c :: rest) :
    Inv { s with callQueue := rest, handed := s.handed ++ [queued s c true caps] } ∧
      s.pc c = .callParked ∧ { s with callQueue := rest }.recorded c = 0 := by
  have hrecorded : ∀ u, { s with callQueue := rest }.recorded u + [c].count u = s.recorded u := by
    intro u
    simp only [State.recorded, hq]
    grind
  have hc := hrecorded c
  simp only [count_cons_self, count_nil] at hc
  obtain ⟨hpc, hone⟩ := hi.caller_parked (c := c) (by omega)
  have hsends := hi.sends c
  rw [hpc] at hsends
  refine ⟨⟨hi.sends, hi.receives, ?_, ?_, ?_, hi.ended, hi.woken_nodup, hi.called⟩, hpc, by omega⟩
  · intro u
    have h := hi.recorded u
    have hu := hrecorded u
    simp only [State.recorded] at h hu ⊢
    omega
  · intro m hm
    have h := hi.numbered m
    simp only [State.waiting, hq, queued, State.current, Pc.sends] at h hm hsends ⊢
    simp only [State.recorded, hq] at hone
    grind
  · have h := hi.numbered
    have hnodup := hi.handed_nodup
    simp only [State.waiting, hq, queued, State.current] at h ⊢
    grind

theorem Inv.dequeueSender (hi : Inv s) (caps : Caps) (hq : s.sendQueue = c :: rest) :
    Inv { s with
      sendQueue := rest, handed := s.handed ++ [queued s c false caps]
      pc := update s.pc c .idle } := by
  have hpc := hi.sender_parked hq
  have hblocked := hi.recorded c
  have hsent := hi.sends c
  rw [hpc] at hblocked hsent
  refine ⟨?_, ?_, ?_, ?_, ?_, ?_, hi.woken_nodup, ?_⟩
  · intro u
    have h := hi.sends u
    grind
  · intro u
    have h := hi.receives u
    grind
  · intro u
    have h := hi.recorded u
    have hsame := holders_move hpc .idle u
    simp only [State.recorded] at h ⊢
    grind
  · intro m hm
    have h := hi.numbered m
    simp only [State.recorded, Pc.blocked, Pc.sends] at hblocked hsent
    simp only [State.waiting, hq, queued, State.current] at h hm ⊢
    grind
  · have h := hi.numbered
    have hnodup := hi.handed_nodup
    simp only [State.waiting, hq, queued, State.current] at h ⊢
    grind
  · intro u k hk
    have h := hi.ended u k hk
    grind
  · intro u k hk
    have h := hi.called u k hk
    grind

theorem Inv.parkRecv (hi : Inv s) (ht : s.pc t = .idle) :
    Inv { s with recvQueue := s.recvQueue ++ [t], pc := update s.pc t (.recvParked op) } := by
  refine ⟨?_, ?_, ?_, hi.numbered, hi.handed_nodup, ?_, hi.woken_nodup, ?_⟩
  · intro u
    have h := hi.sends u
    grind
  · intro u
    have h := hi.receives u
    grind
  · intro u
    have h := hi.recorded u
    have hsame := holders_move ht (.recvParked op) u
    simp only [State.recorded] at h ⊢
    grind
  · intro u k hk
    have h := hi.ended u k hk
    grind
  · intro u k hk
    have h := hi.called u k hk
    grind

omit [Fintype Task] in
theorem count_set_sender {replies : List (Reply Task)} {index : ℕ} {request : Sent Task}
    (h : replies[index]? = some ⟨some c, request⟩) (u : Task) :
    ((replies.set index ⟨none, request⟩).filterMap Reply.sender).count u + [c].count u =
      (replies.filterMap Reply.sender).count u := by
  induction replies generalizing index with
  | nil => simp at h
  | cons reply replies ih =>
    cases index with
    | zero =>
      cases Option.some.inj h
      simp
      grind
    | succ index =>
      have hrest := ih (by simpa using h)
      cases hs : reply.sender with
      | none => simpa [hs] using hrest
      | some d =>
        simp only [set_cons_succ, filterMap_cons, hs]
        grind

end

/-! ### Every run keeps the invariant -/

section

variable {s : State Task} {t : Task} {msg : Message} {caps : Caps} {op : RecvOp}

omit [DecidableEq Task] [Fintype Task] in
theorem plain_of {p : Pc Task} (ht : s.pc t = p) (hp : p.Plain) : (s.pc t).Plain := by
  rw [ht]
  exact hp

section

variable (hi : Inv s)
include hi

theorem inv_send (ht : s.pc t = .idle) : Inv (s.send t msg caps) := by
  have hsub : Inv (s.submit t msg) := hi.submit ht
  simp only [send]
  split
  · rename_i r rest hq
    exact hsub.handOff hq ht rfl hi.submit_fresh
  · exact hsub.parkSend ht hi.submit_fresh

/-- A call reaches the receive queue like a send and blocks in addition. -/
theorem inv_call (ht : s.pc t = .idle) : Inv (s.call t msg caps) := by
  have hsub : Inv (s.submit t msg) := hi.submit ht
  have hfresh : ∀ m ∈ (s.submit t msg).handed, m.origin ≠ some ((s.submit t msg).current t) :=
    hi.submit_fresh
  have hended : (s.submit t msg).current t ∉ (s.submit t msg).woken := hi.submit_ended
  have hidle := hsub.waiting_idle ht
  simp only [call]
  split
  · rename_i r rest hq
    obtain ⟨op, hr⟩ := hsub.receiver_parked hq
    have hrt : t ≠ r := by
      intro htr
      rw [← htr] at hr
      cases ht.symm.trans hr
    have hhand : Inv ((s.submit t msg).handOff r rest
        ⟨some ((s.submit t msg).current t), true, { msg with caps }⟩) :=
      hsub.handOff hq ht rfl hfresh
    rw [handOff_eq hr] at hhand ⊢
    have ht' : update (s.submit t msg).pc r (.recvWoken op) t = .idle := by
      rw [update_of_ne hrt]
      exact ht
    refine hhand.block ht' hended ?_ hhand.numbered
    intro u
    simp only [toList_some]
    omega
  · refine hsub.block ht hended ?_ ?_
    · intro u
      rw [count_append]
      omega
    · intro m hm
      obtain ⟨u, k, ho, hk⟩ := hsub.numbered m hm
      refine ⟨u, k, ho, ?_⟩
      have hne := hfresh m hm
      simp only [current, waiting] at hne hidle hk ⊢
      grind

theorem inv_receive (ht : s.pc t = .idle) : Inv (s.receive t op caps) := by
  simp only [receive]
  split
  · rename_i c rest hq
    obtain ⟨hd, hpc, hzero⟩ := hi.dequeueCaller caps hq
    cases op with
    | recvCall =>
      refine hd.finish (plain_of ht ⟨rfl, rfl, rfl⟩) ?_
      intro d hd
      cases hd
      exact ⟨hpc, hzero⟩
    | _ =>
      refine (hd.setPending hpc ?_).finish (plain_of ht ⟨rfl, rfl, rfl⟩) (fun _ h => by cases h)
      have hclear := recorded_clearPending { s with callQueue := rest } c
      simp only at hclear hzero ⊢
      simp only [recorded] at hclear hzero ⊢
      omega
  · rename_i sender rest _ hq
    have hd := hi.dequeueSender caps hq
    have hpc := hi.sender_parked hq
    have hplain : (update s.pc sender .idle t).Plain := by
      rw [update_of_ne]
      · exact plain_of ht ⟨rfl, rfl, rfl⟩
      · intro h
        rw [← h, ht] at hpc
        cases hpc
    exact hd.finish hplain (fun _ h => by cases h)
  · exact hi.parkRecv ht

theorem inv_dismiss : Inv s.dismiss := by
  unfold dismiss
  split
  · rename_i c hc
    obtain ⟨hpc, hzero⟩ := hi.pending_parked hc
    exact hi.clearPending.wakeCaller _ hpc hzero
  · exact hi

theorem dismiss_pc (ht : s.pc t ≠ .callParked) : s.dismiss.pc t = s.pc t := by
  unfold dismiss
  split
  · rename_i c hc
    simp only [wakeCaller]
    rw [update_of_ne]
    intro h
    rw [h] at ht
    exact ht (hi.pending_parked hc).1
  · rfl

theorem inv_relock (ht : s.pc t = .recvWoken op) : Inv (s.relock t op) := by
  have hplain := plain_of ht ⟨rfl, rfl, rfl⟩
  cases op with
  | recv =>
    refine (inv_dismiss hi).finish ?_ (fun _ h => by cases h)
    rw [dismiss_pc hi (by rw [ht]; simp)]
    exact hplain
  | replyRecv => exact hi.finish hplain (fun _ h => by cases h)
  | recvCall =>
    refine hi.clearPending.finish hplain ?_
    intro c hc
    exact hi.pending_parked hc

theorem inv_answer : Inv (s.answer t msg caps) := by
  unfold answer
  split
  · rename_i c hc
    obtain ⟨hpc, hzero⟩ := hi.pending_parked hc
    have hi' := hi.clearPending.wakeCaller { msg with caps } hpc hzero
    exact { hi' with }
  · exact { hi with }

theorem answer_pc (ht : s.pc t ≠ .callParked) : (s.answer t msg caps).pc t = s.pc t := by
  unfold answer
  split
  · rename_i c hc
    simp only [wakeCaller]
    rw [update_of_ne]
    intro h
    rw [h] at ht
    exact ht (hi.pending_parked hc).1
  · rfl

/-- A handler that lets go of its caller leaves it blocked and unrecorded. -/
theorem holder_parked {c : Task} (hc : (s.pc t).holder = some c) (hplain : (s.pc t).Plain) :
    update s.pc t .idle c = .callParked ∧ { s with pc := update s.pc t .idle }.recorded c = 0 := by
  have hmove := total_update (fun pc : Pc Task => pc.holder.toList.count c) s.pc t .idle
  rw [hc] at hmove
  simp only [holder_idle, toList_some, count_cons_self, count_nil, toList_none] at hmove
  have hpos : 0 < s.recorded c := by
    unfold recorded
    omega
  obtain ⟨hpc, hone⟩ := hi.caller_parked hpos
  constructor
  · rw [update_of_ne, hpc]
    intro h
    rw [← h, hpc] at hplain
    cases hplain.2.2
  · unfold recorded at hone ⊢
    simp only
    omega

theorem inv_handle {request : Sent Task} {sender : Option Task} {outcome : HandlerOutcome}
    (ht : s.pc t = .handling request sender) :
    Inv (s.handle t request sender outcome) := by
  have hplain := plain_of ht ⟨rfl, rfl, rfl⟩
  have hrel := hi.release hplain
  cases sender with
  | none => cases outcome <;> exact hrel
  | some c =>
    obtain ⟨hpc, hzero⟩ := holder_parked hi (by rw [ht]; rfl) hplain
    cases outcome with
    | writeUserFails => exact hrel
    | createFails | tableFull => exact hrel.wakeCaller _ hpc hzero
    | inserted =>
      refine { hrel with recorded := fun u => ?_ }
      have h := hrel.recorded u
      simp only [handle, recorded, filterMap_append, count_append]
        at h hzero ⊢
      grind

theorem inv_swap {index : ℕ} {issued : Bool} (ht : s.pc t = .idle) :
    Inv (s.swap t index msg issued) := by
  unfold State.swap
  split
  · rename_i c request hr
    have hcount := count_set_sender hr
    have hi' : Inv { s with replies := s.replies.set index ⟨none, request⟩ } := by
      refine { hi with recorded := fun u => ?_ }
      have h := hi.recorded u
      have hu := hcount u
      simp only [State.recorded] at h ⊢
      omega
    refine hi'.relocate (plain_of ht ⟨rfl, rfl, rfl⟩) ⟨rfl, rfl, rfl⟩ fun u => ?_
    have h := hi.recorded u
    have hu := hcount u
    rw [ht]
    simp only [State.recorded, holder, toList_some, toList_none, count_nil] at h ⊢
    omega
  · exact hi

theorem inv_deliver {c : Task} {issued : Option (Sent Task)}
    (ht : s.pc t = .replying c msg issued) : Inv (s.deliver t c msg issued) := by
  have hplain := plain_of ht ⟨rfl, rfl, rfl⟩
  obtain ⟨hpc, hzero⟩ := holder_parked hi (by rw [ht]; rfl) hplain
  have hi' := (hi.release hplain).wakeCaller msg hpc hzero
  exact { hi' with }

end

end

/-- Every step is one operation, or one section of it. -/
inductive Stepped (s : State Task) (t : Task) : Action → State Task → Prop where
  | send (msg : Message) (caps : Caps) : s.pc t = .idle →
      Stepped s t (.send msg caps) (s.send t msg caps)
  | call (msg : Message) (caps : Caps) : s.pc t = .idle →
      Stepped s t (.call msg caps) (s.call t msg caps)
  | recv (caps : Caps) : s.pc t = .idle → Stepped s t (.recv caps) (s.receive t .recv caps)
  | recvCall (caps : Caps) : s.pc t = .idle →
      Stepped s t (.recvCall caps) (s.receive t .recvCall caps)
  | reply (msg : Message) (caps : Caps) : s.pc t = .idle →
      Stepped s t (.reply msg caps) (s.answer t msg caps)
  | replyRecv (msg : Message) (replyCaps caps : Caps) : s.pc t = .idle →
      Stepped s t (.replyRecv msg replyCaps caps)
        ((s.answer t msg replyCaps).receive t .replyRecv caps)
  | relock (op : RecvOp) : s.pc t = .recvWoken op → Stepped s t .relock (s.relock t op)
  | handle (request : Sent Task) (sender : Option Task) (outcome : HandlerOutcome) :
      s.pc t = .handling request sender →
      Stepped s t (.handle outcome) (s.handle t request sender outcome)
  | replySend (index : ℕ) (msg : Message) (caps : Caps) : s.pc t = .idle →
      Stepped s t (.replySend index msg caps) (s.swap t index { msg with caps } true)
  | replyDestroy (index : ℕ) : s.pc t = .idle →
      Stepped s t (.replyDestroy index) (s.swap t index {} false)
  | deliver (caller : Task) (msg : Message) (issued : Option (Sent Task)) :
      s.pc t = .replying caller msg issued →
      Stepped s t .deliver (s.deliver t caller msg issued)

omit [Fintype Task] in
theorem next_stepped {s s' : State Task} {t : Task} {action : Action}
    (h : s.next (t, action) = some s') : Stepped s t action s' := by
  simp only [State.next] at h
  split at h
  all_goals cases h
  all_goals constructor
  all_goals assumption

theorem inv_next {s s' : State Task} {l : Task × Action} (hi : Inv s) (h : s.next l = some s') :
    Inv s' := by
  obtain ⟨t, action⟩ := l
  cases next_stepped h with
  | send _ _ ht => exact inv_send hi ht
  | call _ _ ht => exact inv_call hi ht
  | recv _ ht | recvCall _ ht => exact inv_receive hi ht
  | reply _ _ _ => exact inv_answer hi
  | replyRecv _ _ _ ht =>
    refine inv_receive (inv_answer hi) ?_
    rw [answer_pc hi (by rw [ht]; simp), ht]
  | relock _ ht => exact inv_relock hi ht
  | handle _ _ _ ht => exact inv_handle hi ht
  | replySend _ _ _ ht | replyDestroy _ ht => exact inv_swap hi ht
  | deliver _ _ _ ht => exact inv_deliver hi ht

/-- In every run and under any condition on the steps, the queues, the records of blocked callers
and the logs agree with what the tasks do. -/
theorem queues_consistent {allowed : State Task → Task × Action → Prop} {s : State Task}
    (h : (system Task).Reachable allowed s) : Inv s := by
  refine h.invariant ?_ ?_
  · intro s hs
    rw [show s = init from hs]
    exact inv_init
  · intro s l s' hi _ hs
    exact inv_next hi hs

/-- Two receivers park and are woken by a send and by a call, which the second one ends; then a
sender and the caller find nobody, and a handler takes the caller. -/
theorem queues_consistent_parked : ∃ s : State (Fin 4),
    s.sendQueue = [2] ∧ s.callQueue = [] ∧ s.woken = [(3, 1)] ∧ s.calls = [(3, 1), (3, 2)] ∧
      (s.handed.map Sent.origin) = [some (2, 1), some (3, 1), some (3, 2)] ∧ Inv s := by
  let caps : Caps := ⟨[0, 0, 0, 0], rfl⟩
  have hreach : (system (Fin 4)).Reachable Transition.anyStep _ :=
    Transition.System.runNext_reachable
      [(0, .recv caps), (1, .recv caps), (2, .send {} caps), (0, .relock), (3, .call {} caps),
        (1, .relock), (2, .send {} caps), (3, .call {} caps), (0, .recvCall caps)] (.init rfl) rfl
  exact ⟨_, rfl, rfl, rfl, rfl, rfl, queues_consistent hreach⟩

end Innigkeit.Capabilities.Endpoint
