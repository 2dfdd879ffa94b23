import Innigkeit.Library.Transition
import Innigkeit.Network.Tcp.Socket

/-!
Which inbound segments change a connection. No handler compares the number that
a segment acknowledges with what was sent, except to end a handshake or a close,
and nobody verifies a checksum or a sequence number. `Ignored` collects the
segments that change nothing; the run follows the send side of every slot.
-/

namespace Innigkeit.Network.Tcp

open Transition Function Socket Option Function

/-- The acknowledgement lies between the oldest unacknowledged byte and the next one to send. -/
def AckInWindow (s : Socket) (incoming : Segment) : Prop :=
  (incoming.ack - s.sndUna).toNat ≤ (s.sndNxt - s.sndUna).toNat

/-- The guards under which the handler of the socket's state does nothing. -/
def Skipped (sockets : Sockets) (slot : Slot) (incoming : Segment) : Prop :=
  let s := sockets slot
  match s.state with
  | .listen => ¬(incoming.flags.syn ∧ !incoming.flags.ack) ∨ allocSlot sockets = none
  | .synSent => !incoming.flags.syn
  | .synReceived => !incoming.flags.rst ∧ (incoming.flags.ack → incoming.ack ≠ s.sndNxt)
  | .established =>
    !incoming.flags.rst ∧ (incoming.flags.ack →
      incoming.ack = s.sndUna ∧ incoming.payload = [] ∧ !incoming.flags.fin)
  | .finWait1 =>
    !incoming.flags.fin ∧
      (incoming.flags.ack → incoming.ack = s.sndUna ∧ incoming.ack ≠ s.sndNxt)
  | .finWait2 => !incoming.flags.fin ∧ (incoming.flags.ack → incoming.ack = s.sndUna)
  | .closeWait | .lastAck => incoming.flags.ack → incoming.ack ≠ s.sndNxt
  | .closed | .timeWait => True

/-- The segment belongs to no socket, or the handler of its socket does nothing. -/
def Ignored (sockets : Sockets) (srcIp : Ip) (data : List Byte) : Prop :=
  ∀ incoming, parse data = some incoming →
    ∀ slot, findSocket sockets incoming.dstPort srcIp incoming.srcPort = some slot →
      Skipped sockets slot incoming

section

variable {env : Env} {sockets : Sockets} {s : Socket} {slot : Slot} {srcIp : Ip}
  {incoming : Segment}

theorem allocSlot_free (h : allocSlot sockets = some slot) : (sockets slot).inUse = false := by
  simpa using List.find?_some h

theorem handleListen_eq_self_iff :
    handleListen env sockets slot srcIp incoming = sockets ↔
      ¬(incoming.flags.syn ∧ !incoming.flags.ack) ∨ allocSlot sockets = none := by
  rw [handleListen]
  by_cases hsyn : incoming.flags.syn ∧ !incoming.flags.ack
  · rw [if_neg (by grind)]
    cases hslot : allocSlot sockets with
    | none => simp
    | some child =>
      refine iff_of_false (fun heq => ?_) (by grind)
      have hchild := congrArg inUse (update_eq_self_iff.mp heq)
      simp [allocSlot_free hslot] at hchild
  · exact iff_of_true (if_pos (by grind)) (.inl hsyn)

theorem handleSynSent_eq_self_iff (hstate : s.state = .synSent) :
    handleSynSent env s incoming = s ↔ !incoming.flags.syn := by
  constructor
  · intro heq
    by_contra hsyn
    have hnew := congrArg state heq
    simp only [handleSynSent, hsyn] at hnew
    grind [send_state]
  · intro hsyn
    rw [handleSynSent, if_pos hsyn]

theorem handleSynReceived_state (hack : incoming.flags.ack = true)
    (hrst : incoming.flags.rst = false) (hnxt : incoming.ack = (sockets slot).sndNxt) :
    (handleSynReceived sockets slot incoming slot).state = .established := by
  simp only [handleSynReceived, hack, hrst, hnxt, ne_eq, not_true, if_false, Bool.not_true,
    Bool.false_eq_true]
  rw [announce_rest]
  simp

theorem handleSynReceived_eq_self_iff (hstate : (sockets slot).state = .synReceived) :
    handleSynReceived sockets slot incoming = sockets ↔
      !incoming.flags.rst ∧ (incoming.flags.ack → incoming.ack ≠ (sockets slot).sndNxt) := by
  cases hrst : incoming.flags.rst with
  | true =>
    refine iff_of_false (fun heq => ?_) (by simp)
    rw [handleSynReceived, hrst, if_pos rfl] at heq
    have hnew := congrArg state (update_eq_self_iff.mp heq)
    simp [hstate] at hnew
  | false =>
    by_cases hack : incoming.flags.ack = true ∧ incoming.ack = (sockets slot).sndNxt
    · refine iff_of_false (fun heq => ?_) (by simp [hack])
      have hnew := handleSynReceived_state hack.1 hrst hack.2
      rw [heq, hstate] at hnew
      cases hnew
    · refine iff_of_true ?_ ⟨rfl, fun ha hn => hack ⟨ha, hn⟩⟩
      simp only [handleSynReceived, hrst]
      grind

theorem handleEstablished_eq_self_iff (hstate : s.state = .established)
    (hlen : incoming.payload.length < 2 ^ 32) :
    handleEstablished env s incoming = s ↔ !incoming.flags.rst ∧ (incoming.flags.ack →
      incoming.ack = s.sndUna ∧ incoming.payload = [] ∧ !incoming.flags.fin) := by
  cases hrst : incoming.flags.rst with
  | true =>
    refine iff_of_false (fun heq => ?_) (by simp)
    have hnew := congrArg state heq
    simp [handleEstablished, hrst, hstate] at hnew
  | false =>
    cases hack : incoming.flags.ack with
    | false => exact iff_of_true (by simp [handleEstablished, hrst, hack]) (by simp)
    | true =>
      constructor
      · intro heq
        obtain ⟨huna, hnew, hrcv⟩ := handleEstablished_fields env s hrst hack
        rw [heq] at huna hnew hrcv
        have hfin : incoming.flags.fin = false := by
          by_contra hfin
          simp [hfin, hstate] at hnew
        have hzero : BitVec.ofNat 32 incoming.payload.length = 0 := by
          simp only [hfin, Bool.false_eq_true, if_false] at hrcv
          bv_omega
        have hempty : incoming.payload.length = 0 := by
          have := congrArg BitVec.toNat hzero
          rwa [BitVec.toNat_ofNat, Nat.mod_eq_of_lt hlen] at this
        exact ⟨rfl, fun _ => ⟨huna.symm, List.length_eq_zero_iff.mp hempty, by simp [hfin]⟩⟩
      · intro h
        obtain ⟨huna, hnil, hfin⟩ := h.2 rfl
        simp only [Bool.not_eq_true'] at hfin
        simp [handleEstablished, hrst, hack, hnil, huna, hfin]

theorem handleFinWait_eq_self_iff (hstate : s.state = .finWait1 ∨ s.state = .finWait2) :
    handleFinWait env s incoming = s ↔ !incoming.flags.fin ∧ (incoming.flags.ack →
      incoming.ack = s.sndUna ∧ (s.state = .finWait1 → incoming.ack ≠ s.sndNxt)) := by
  cases hfin : incoming.flags.fin with
  | true =>
    refine iff_of_false (fun heq => ?_) (by simp)
    have hnew := congrArg state heq
    simp only [handleFinWait, hfin, if_true] at hnew
    grind
  | false =>
    cases hack : incoming.flags.ack with
    | false => exact iff_of_true (by simp [handleFinWait, hfin, hack]) (by simp)
    | true =>
      simp only [handleFinWait, hfin, hack]
      constructor
      · intro heq
        have hnew := congrArg state heq
        have huna := congrArg sndUna heq
        grind
      · intro h
        obtain ⟨huna, hnxt⟩ := h.2 trivial
        simp only [if_true, Bool.false_eq_true, if_false]
        rw [if_neg (fun hw => hnxt hw.1 hw.2.2), huna]

theorem handleLastAck_eq_self_iff (hstate : s.state ≠ .closed) :
    handleLastAck s incoming = s ↔ (incoming.flags.ack → incoming.ack ≠ s.sndNxt) := by
  rw [handleLastAck]
  split
  · next h =>
    refine iff_of_false (fun heq => hstate ?_) (fun hne => hne h.1 h.2)
    exact (congrArg state heq).symm
  · next h => exact iff_of_true rfl fun ha hn => h ⟨ha, hn⟩

theorem dispatch_eq_self_iff (hlen : incoming.payload.length < 2 ^ 32) :
    dispatch env sockets slot srcIp incoming = sockets ↔ Skipped sockets slot incoming := by
  simp only [dispatch, Skipped]
  cases hstate : (sockets slot).state with
  | listen => exact handleListen_eq_self_iff
  | synSent => exact update_eq_self_iff.trans (handleSynSent_eq_self_iff hstate)
  | synReceived => exact handleSynReceived_eq_self_iff hstate
  | established => exact update_eq_self_iff.trans (handleEstablished_eq_self_iff hstate hlen)
  | finWait1 =>
    refine update_eq_self_iff.trans ((handleFinWait_eq_self_iff (.inl hstate)).trans ?_)
    simp [hstate]
  | finWait2 =>
    refine update_eq_self_iff.trans ((handleFinWait_eq_self_iff (.inr hstate)).trans ?_)
    simp [hstate]
  | closeWait | lastAck =>
    exact update_eq_self_iff.trans (handleLastAck_eq_self_iff (by simp [hstate]))
  | closed | timeWait => exact iff_of_true rfl trivial

theorem length_payload {data : List Byte} (h : parse data = some incoming) :
    incoming.payload.length ≤ data.length := by
  unfold parse at h
  split at h
  · cases h
  · dsimp only at h
    split at h
    · cases h
    · cases h
      simp

theorem handleSegment_eq_self_iff {data : List Byte} (hlen : data.length < 2 ^ 32) :
    handleSegment env sockets srcIp data = sockets ↔ Ignored sockets srcIp data := by
  unfold handleSegment Ignored
  cases hparse : parse data with
  | none => simp
  | some incoming =>
    have hpayload := length_payload hparse
    cases hfind : findSocket sockets incoming.dstPort srcIp incoming.srcPort with
    | none => simp [hfind]
    | some slot =>
      simp only [hfind]
      rw [dispatch_eq_self_iff (by omega)]
      simp [hfind]

end

/-- The send side of a connection: its first sequence number, and how far the
acknowledgements and the transmissions have moved from it. -/
structure Numbers where
  isn : BitVec 32
  acked : Nat
  sent : Nat

structure Net where
  sockets : Sockets
  numbers : Slot → Numbers

namespace Net

/-- A new socket starts from its own numbers; the others move by what the operation adds. -/
def advance (old new : Socket) (n : Numbers) (fresh : Bool) : Numbers :=
  if fresh then { isn := new.sndUna, acked := 0, sent := (new.sndNxt - new.sndUna).toNat }
  else
    { n with
      acked := n.acked + (new.sndUna - old.sndUna).toNat
      sent := n.sent + (new.sndNxt - old.sndNxt).toNat }

def next (n : Net) (op : Operation) : Option Net :=
  some {
    sockets := perform n.sockets op
    numbers := fun i =>
      advance (n.sockets i) (perform n.sockets op i) (n.numbers i) (opened n.sockets op = some i) }

structure Initial (n : Net) : Prop where
  sockets : ∀ i, n.sockets i = {}
  numbers : ∀ i, n.numbers i = ⟨0, 0, 0⟩

def system : System Net Operation := .ofNext Initial next

/-- The checksum fails, or the connection is established and the sequence number lies outside
the window. -/
def Invalid (sockets : Sockets) (srcIp dstIp : Ip) (data : List Byte) : Prop :=
  verifyChecksum data srcIp dstIp = false ∨
    ∃ incoming slot, target sockets srcIp data = some (incoming, slot) ∧
      (sockets slot).state = .established ∧
      RCV_WND ≤ (incoming.seq - (sockets slot).rcvNxt).toNat

/-- What the code takes from a peer without looking: the acknowledgement covers bytes that were
sent, and the one that ends a connect covers its SYN. -/
def Acknowledges (n : Net) (incoming : Segment) (slot : Slot) : Prop :=
  let s := n.sockets slot
  match s.state with
  | .synSent =>
    incoming.flags.syn → incoming.flags.ack →
      AckInWindow s incoming ∧ incoming.ack = (n.numbers slot).isn + 1
  | .established => incoming.flags.rst = false → incoming.flags.ack → AckInWindow s incoming
  | .finWait1 | .finWait2 => incoming.flags.ack → AckInWindow s incoming
  | _ => True

/-- Every segment acknowledges only what was sent, and an invalid one is of those ignored. -/
def Checked (n : Net) : Operation → Prop
  | .segment _ srcIp dstIp data =>
    (∀ incoming slot, target n.sockets srcIp data = some (incoming, slot) →
      n.Acknowledges incoming slot) ∧
    (Invalid n.sockets srcIp dstIp data → Ignored n.sockets srcIp data)
  | _ => True

/-- The acknowledgements lie between the first sequence number and the next one to send. -/
structure Between (s : Socket) (n : Numbers) : Prop where
  sndUna : s.sndUna = n.isn + BitVec.ofNat 32 n.acked
  sndNxt : s.sndNxt = n.isn + BitVec.ofNat 32 n.sent
  le : n.acked ≤ n.sent

/-- Neither acknowledged further nor established. -/
def Quiet (old new : Socket) : Prop :=
  new.sndUna = old.sndUna ∧ (new.state = .established → old.state = .established)

theorem Quiet.refl (s : Socket) : Quiet s s := ⟨rfl, id⟩

variable {sockets : Sockets} {i : Slot} {op : Operation}

theorem quiet_close (env : Env) (s : Socket) : Quiet s (closeLocked env s) := by
  unfold Quiet closeLocked
  refine ⟨?_, fun h => by cases h⟩
  dsimp only
  split <;> simp

/-- No local operation touches what is acknowledged or completes a handshake. -/
theorem quiet_local (hlocal : ∀ env srcIp dstIp data, op ≠ .segment env srcIp dstIp data)
    (hi : opened sockets op ≠ some i) : Quiet (sockets i) (perform sockets op i) := by
  have heffect := perform_effect sockets op i
  generalize perform sockets op i = s at heffect ⊢
  cases heffect with
  | opened h => exact absurd h hi
  | sends => exact ⟨send_sndUna .., by simp⟩
  | receives =>
    rw [rxPop_rest]
    exact ⟨rfl, fun h => h⟩
  | closes | closesAll => exact quiet_close ..
  | kept | waits | takes | reowned => exact ⟨rfl, fun h => h⟩
  | _ => exact absurd rfl (hlocal _ _ _ _)

/-- What a checked segment may do to a slot that it does not open. -/
structure Moves (n : Net) (srcIp : Ip) (data : List Byte) (i : Slot) (new : Socket) : Prop where
  window : (new.sndUna - (n.sockets i).sndUna).toNat ≤
    ((n.sockets i).sndNxt - (n.sockets i).sndUna).toNat
  syn : (n.sockets i).state = .synSent → new.state = .established →
    ∃ incoming, target n.sockets srcIp data = some (incoming, i) ∧ incoming.flags.ack ∧
      incoming.ack = (n.numbers i).isn + 1

section

variable {n : Net} {env : Env} {srcIp dstIp : Ip} {data : List Byte} {i slot : Slot} {new : Socket}
  {incoming : Segment}

theorem Quiet.moves (h : Quiet (n.sockets i) new) : Moves n srcIp data i new where
  window := by
    rw [h.1, BitVec.sub_self]
    exact Nat.zero_le _
  syn hsyn hnew := by
    rw [h.2 hnew] at hsyn
    cases hsyn

theorem Moves.update (h : Moves n srcIp data slot new) (i : Slot) :
    Moves n srcIp data i (update n.sockets slot new i) := by
  by_cases hi : i = slot
  · subst hi
    rwa [update_self]
  · rw [update_of_ne hi]
    exact (Quiet.refl _).moves

/-- A new acknowledgement that lies in the window, where the state is not that of a connect. -/
theorem Moves.of_window (incoming : Segment) (hstate : (n.sockets slot).state ≠ .synSent)
    (hack : new.sndUna = (n.sockets slot).sndUna ∨
      new.sndUna = incoming.ack ∧ AckInWindow (n.sockets slot) incoming) :
    Moves n srcIp data slot new where
  window := by
    rcases hack with hsame | hack
    · rw [hsame, BitVec.sub_self]
      exact Nat.zero_le _
    · rw [hack.1]
      exact hack.2
  syn hsyn := absurd hsyn hstate

theorem moves_synSent (htarget : target n.sockets srcIp data = some (incoming, slot))
    (hstate : (n.sockets slot).state = .synSent) (hack : n.Acknowledges incoming slot) :
    Moves n srcIp data slot (handleSynSent env (n.sockets slot) incoming) := by
  simp only [Acknowledges, hstate] at hack
  unfold handleSynSent
  split
  · exact (Quiet.refl _).moves
  · next hsyn =>
    dsimp only
    split
    · next ha =>
      obtain ⟨hwindow, hisn⟩ := hack (by simpa using hsyn) ha
      refine ⟨?_, fun _ _ => ⟨incoming, htarget, ha, hisn⟩⟩
      rw [send_sndUna]
      exact hwindow
    · refine Quiet.moves ⟨?_, fun h => by cases h⟩
      exact send_sndUna ..

theorem moves_synReceived (hstate : (n.sockets slot).state = .synReceived) :
    Moves n srcIp data i (handleSynReceived n.sockets slot incoming i) := by
  have hne : (n.sockets slot).state ≠ .synSent := by simp [hstate]
  unfold handleSynReceived
  split
  · refine Moves.update ?_ i
    exact .of_window incoming hne (.inl rfl)
  · split
    · exact (Quiet.refl _).moves
    · split
      · exact (Quiet.refl _).moves
      · next hnxt =>
        have hack : AckInWindow (n.sockets slot) incoming := by
          exact le_of_eq (by rw [not_not.mp hnxt])
        have hmoves : Moves n srcIp data i (update n.sockets slot
            { n.sockets slot with sndUna := incoming.ack, state := .established } i) :=
          (Moves.of_window incoming hne (.inr ⟨rfl, hack⟩)).update i
        rw [announce_rest]
        exact ⟨hmoves.window, hmoves.syn⟩

theorem moves_established (hstate : (n.sockets slot).state = .established)
    (hack : n.Acknowledges incoming slot) :
    Moves n srcIp data slot (handleEstablished env (n.sockets slot) incoming) := by
  have hne : (n.sockets slot).state ≠ .synSent := by simp [hstate]
  simp only [Acknowledges, hstate] at hack
  refine .of_window incoming hne ?_
  cases hrst : incoming.flags.rst with
  | true => exact .inl (by simp [handleEstablished, hrst])
  | false =>
    cases ha : incoming.flags.ack with
    | false => exact .inl (by simp [handleEstablished, hrst, ha])
    | true => exact .inr ⟨(handleEstablished_fields env _ hrst ha).1, hack hrst ha⟩

theorem moves_finWait (hstate : (n.sockets slot).state = .finWait1 ∨
    (n.sockets slot).state = .finWait2) (hack : n.Acknowledges incoming slot) :
    Moves n srcIp data slot (handleFinWait env (n.sockets slot) incoming) := by
  have hne : (n.sockets slot).state ≠ .synSent := by grind
  refine .of_window incoming hne ?_
  have hwindow : incoming.flags.ack = true → AckInWindow (n.sockets slot) incoming := by
    rcases hstate with hstate | hstate <;> simpa only [Acknowledges, hstate] using hack
  cases ha : incoming.flags.ack with
  | false =>
    refine .inl ?_
    simp only [handleFinWait, ha]
    split <;> simp
  | true =>
    refine .inr ⟨?_, hwindow ha⟩
    simp only [handleFinWait, ha]
    grind [send_sndUna]

theorem moves_lastAck (hstate : (n.sockets slot).state ≠ .synSent) :
    Moves n srcIp data slot (handleLastAck (n.sockets slot) incoming) := by
  refine .of_window incoming hstate (.inl ?_)
  unfold handleLastAck
  split <;> rfl

theorem moves_segment (hchecked : n.Checked (.segment env srcIp dstIp data))
    (hi : opened n.sockets (.segment env srcIp dstIp data) ≠ some i) :
    Moves n srcIp data i (handleSegment env n.sockets srcIp data i) := by
  have heffect := segment_effect n.sockets i env srcIp dstIp data
  generalize handleSegment env n.sockets srcIp data i = s at heffect ⊢
  cases heffect with
  | kept => exact (Quiet.refl _).moves
  | opened h => exact absurd h hi
  | synSent h hstate => exact moves_synSent h hstate (hchecked.1 _ _ h)
  | synReceived h hstate => exact moves_synReceived hstate
  | established h hstate => exact moves_established hstate (hchecked.1 _ _ h)
  | finWait h hstate => exact moves_finWait hstate (hchecked.1 _ _ h)
  | lastAck h hstate => exact moves_lastAck (by rcases hstate with hs | hs <;> simp [hs])

end

theorem Between.fresh (old new : Socket) (n : Numbers) : Between new (advance old new n true) where
  sndUna := by simp [advance]
  sndNxt := by
    simp only [advance, if_true, BitVec.ofNat_toNat, BitVec.setWidth_eq]
    rw [BitVec.add_comm, BitVec.sub_add_cancel]
  le := Nat.zero_le _

/-- Moving the acknowledgements inside the window keeps them behind the transmissions. -/
theorem Between.advance {old new : Socket} {n : Numbers} (h : Between old n)
    (hwindow : (new.sndUna - old.sndUna).toNat ≤ (old.sndNxt - old.sndUna).toNat) :
    Between new (advance old new n false) where
  sndUna := by
    simp only [Net.advance, Bool.false_eq_true, if_false, BitVec.ofNat_add, BitVec.ofNat_toNat,
      BitVec.setWidth_eq]
    rw [← BitVec.add_assoc, ← h.sndUna, BitVec.add_comm, BitVec.sub_add_cancel]
  sndNxt := by
    simp only [Net.advance, Bool.false_eq_true, if_false, BitVec.ofNat_add, BitVec.ofNat_toNat,
      BitVec.setWidth_eq]
    rw [← BitVec.add_assoc, ← h.sndNxt, BitVec.add_comm, BitVec.sub_add_cancel]
  le := by
    obtain ⟨k, hk⟩ := Nat.exists_eq_add_of_le h.le
    have hopen : old.sndNxt - old.sndUna = BitVec.ofNat 32 k := by
      rw [h.sndNxt, h.sndUna, hk, BitVec.ofNat_add]
      bv_omega
    rw [hopen, BitVec.toNat_ofNat] at hwindow
    have := Nat.mod_le k (2 ^ 32)
    simp only [Net.advance, Bool.false_eq_true, if_false]
    omega

theorem opened_state (h : opened sockets op = some i) :
    (perform sockets op i).state ≠ .established := by
  cases op with
  | openListener owner port =>
    simp only [opened] at h
    simp [perform, openListener, h]
  | openConnect env owner srcPort dstIp dstPort =>
    simp only [opened] at h
    split at h
    · cases h
    · next hup =>
      rw [perform, openConnect, if_neg hup, h]
      simp
  | segment env srcIp dstIp data =>
    simp only [opened, bind_eq_bind, bind_eq_some_iff] at h
    obtain ⟨incoming, hparse, slot, hfind, hslot⟩ := h
    split at hslot
    · next hsyn =>
      simp only [perform, handleSegment, hparse, hfind, dispatch, hsyn.1, handleListen]
      simp [hsyn.2.1, hslot, show incoming.flags.ack = false by simpa using hsyn.2.2]
    · cases hslot
  | _ => cases h

theorem moves_perform {n : Net} (hchecked : n.Checked op) (hi : opened n.sockets op ≠ some i) :
    ((perform n.sockets op i).sndUna - (n.sockets i).sndUna).toNat ≤
      ((n.sockets i).sndNxt - (n.sockets i).sndUna).toNat := by
  cases op with
  | segment env srcIp dstIp data => exact (moves_segment hchecked hi).window
  | _ =>
    have hquiet := quiet_local (fun _ _ _ _ => Operation.noConfusion) hi
    exact (hquiet.moves : Moves n 0 [] i _).window

theorem between_of_reachable {n : Net} (h : system.Reachable Checked n) (i : Slot) :
    Between (n.sockets i) (n.numbers i) := by
  refine @System.Reachable.invariant _ _ system Checked
    (fun n => Between (n.sockets i) (n.numbers i)) ?_ ?_ n h
  · intro n h0
    rw [h0.sockets, h0.numbers]
    exact ⟨rfl, rfl, le_rfl⟩
  · intro n op n' hn hchecked hnext
    cases hnext
    by_cases hi : opened n.sockets op = some i
    · simp only [hi, decide_true]
      exact .fresh _ _ _
    · simp only [hi, decide_false]
      exact hn.advance (moves_perform hchecked hi)

/-- While every segment acknowledges only what was sent and every invalid one is of those that
the code ignores: the acknowledgements of each connection stay between its first sequence number
and the next one, a connect is completed by an acknowledgement of its SYN only, and an invalid
segment changes nothing exactly if it is ignored. -/
theorem segments_checked {n : Net} (h : system.Reachable Checked n) :
    (∀ i, Between (n.sockets i) (n.numbers i)) ∧
    (∀ op i, n.Checked op → (n.sockets i).state = .synSent →
      (perform n.sockets op i).state = .established →
        ∃ env srcIp dstIp data incoming, op = .segment env srcIp dstIp data ∧
          target n.sockets srcIp data = some (incoming, i) ∧ incoming.flags.ack ∧
          incoming.ack = (n.numbers i).isn + 1) ∧
    ∀ env srcIp dstIp data, data.length < 2 ^ 32 → Invalid n.sockets srcIp dstIp data →
      (handleSegment env n.sockets srcIp data = n.sockets ↔ Ignored n.sockets srcIp data) := by
  refine ⟨between_of_reachable h, fun op i hchecked hsyn hnew => ?_,
    fun _ _ _ _ hlen _ => handleSegment_eq_self_iff hlen⟩
  have hi : opened n.sockets op ≠ some i := fun hopen => opened_state hopen hnew
  cases op with
  | segment env srcIp dstIp data =>
    obtain ⟨incoming, htarget, hack, hisn⟩ := (moves_segment hchecked hi).syn hsyn hnew
    exact ⟨env, srcIp, dstIp, data, incoming, rfl, htarget, hack, hisn⟩
  | _ =>
    have hquiet := (quiet_local (fun _ _ _ _ => Operation.noConfusion) hi).2 hnew
    rw [hquiet] at hsyn
    cases hsyn

def blank : Net where
  sockets := fun _ => {}
  numbers := fun _ => ⟨0, 0, 0⟩

theorem blank_initial : blank.Initial := ⟨fun _ => rfl, fun _ => rfl⟩

/-- A network card that is up, at boot. -/
def online : Env where
  mac := some 0
  ip := some 0
  arpLookup := fun _ => some 0
  uptimeMs := 0

/-- A connect from port 4096 to port 80. -/
def connect : Operation := .openConnect online 1 4096 7 80

/-- Its answer, with a wrong checksum and an acknowledgement of bytes never sent. -/
def forged : List Byte :=
  [0, 80, 16, 0, 0, 0, 0, 7, 0, 0, 0, 5, 0x50, 0x12, 0, 0, 0, 0, 0, 0]

/-- Its answer, as the peer sends it. -/
def synAck : List Byte :=
  [0, 80, 16, 0, 0, 0, 0, 7, 0, 0, 0, 1, 0x50, 0x12, 0, 0, 0x9F, 0x74, 0, 0]

/-- The connect is completed by an answer that acknowledges its SYN. -/
theorem segments_checked_answered : ∃ n : Net, system.Reachable Checked n ∧
    (n.sockets 0).state = .established ∧ (n.numbers 0).acked = 1 ∧
    ∀ i, Between (n.sockets i) (n.numbers i) := by
  have hsent : (next blank connect).map (fun n => decide ((n.sockets 0).state = .synSent ∧
      (n.sockets 0).sndUna = 0 ∧ (n.sockets 0).sndNxt = 1 ∧ (n.numbers 0).isn = 0 ∧
      (target n.sockets 7 synAck).map (fun found => (found.2, found.1.ack)) = some (0, 1))) =
        some true := by decide
  have hrun : (System.runNext next blank [connect, .segment online 7 0 synAck]).map
      (fun n => ((n.sockets 0).state, (n.numbers 0).acked)) = some (.established, 1) := by decide
  obtain ⟨n, hn, hfields⟩ := map_eq_some_iff.mp hsent
  obtain ⟨hstate, huna, hnxt, hisn, htarget⟩ := of_decide_eq_true hfields
  obtain ⟨n', hn', hnew⟩ := map_eq_some_iff.mp hrun
  obtain ⟨hestablished, hacked⟩ := Prod.mk.inj hnew
  simp only [System.runNext, hn, bind_some, bind_eq_some_iff] at hn'
  obtain ⟨_, hn', ⟨⟩⟩ := hn'
  have hfound (incoming : Segment) (slot : Slot)
      (h : target n.sockets 7 synAck = some (incoming, slot)) : slot = 0 ∧ incoming.ack = 1 := by
    rw [h, map_some, some.injEq, Prod.mk.injEq] at htarget
    exact htarget
  have hchecked : n.Checked (.segment online 7 0 synAck) := by
    refine ⟨fun incoming slot h => ?_, ?_⟩
    · obtain ⟨rfl, hack⟩ := hfound incoming slot h
      simp [Acknowledges, hstate, AckInWindow, hack, huna, hnxt, hisn]
    · rintro (hsum | ⟨incoming, slot, h, hopen, -⟩)
      · exact absurd hsum (by decide)
      · obtain ⟨rfl, -⟩ := hfound incoming slot h
        rw [hstate] at hopen
        cases hopen
  have hreach : system.Reachable Checked n :=
    .step (l := connect) (.init blank_initial) trivial hn
  have hreach' : system.Reachable Checked n' := .step hreach hchecked hn'
  exact ⟨n', hreach', hestablished, hacked, (segments_checked hreach').1⟩

/-- A forged answer establishes the connection and acknowledges bytes that were never sent. -/
theorem forged_segment_accepted :
    verifyChecksum forged 7 0 = false ∧
    ∃ n, system.Reachable anyStep n ∧ (n.sockets 0).state = .established ∧
      ¬Between (n.sockets 0) (n.numbers 0) := by
  have hrun : (System.runNext next blank [connect, .segment online 7 0 forged]).map
      (fun n => ((n.sockets 0).state, (n.numbers 0).acked, (n.numbers 0).sent)) =
        some (.established, 5, 1) := by decide
  obtain ⟨n, hn, hfields⟩ := map_eq_some_iff.mp hrun
  simp only [Prod.mk.injEq] at hfields
  refine ⟨by decide, n, System.runNext_reachable _ (.init blank_initial) hn, hfields.1, ?_⟩
  intro hbetween
  have := hbetween.le
  omega

end Net

end Innigkeit.Network.Tcp
