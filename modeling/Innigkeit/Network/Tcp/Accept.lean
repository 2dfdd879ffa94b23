import Innigkeit.Network.Tcp.Validity

/-!
Which connections `accept` returns. Every socket gets a serial number when its
slot is opened; an inbound connection remembers the serial number of the
listener its SYN went to. A listener has room for one completed handshake, which
is announced to the first listener on the port and stays announced when the
connection is closed. A call of `accept` that finds nothing sleeps in the queue
of the listener; the announcement wakes one of them, which looks again.
-/

namespace Innigkeit.Network.Tcp

open Transition Function Socket List Option Function System

def completes (sockets : Sockets) : Operation → Option Slot
  | .segment _ srcIp _ data =>
    match target sockets srcIp data with
    | some (incoming, slot) =>
      if (sockets slot).state = .synReceived ∧ !incoming.flags.rst ∧ incoming.flags.ack ∧
          incoming.ack = (sockets slot).sndNxt then
        some slot
      else none
    | none => none
  | _ => none

/-- The listener and the connection of an `accept` that returns one. -/
def taken (sockets : Sockets) : Operation → Option (Slot × Slot)
  | .accept _ owner id =>
    match ownedLocked sockets owner id with
    | some l => if (sockets l).isListener then (sockets l).acceptSlot.map (l, ·) else none
    | none => none
  | _ => none

def ends (s : Socket) (incoming : Segment) : Bool :=
  match s.state with
  | .synSent => incoming.flags.syn && !incoming.flags.ack
  | .synReceived | .established => incoming.flags.rst
  | .finWait1 | .finWait2 => incoming.flags.fin
  | .closeWait | .lastAck => incoming.flags.ack && incoming.ack = s.sndNxt
  | .listen | .closed | .timeWait => false

def frees (sockets : Sockets) (op : Operation) (i : Slot) : Bool :=
  match op with
  | .closeSocket _ owner id => ownedLocked sockets owner id = some i
  | .closeAllOwnedBy _ owner => (sockets i).inUse && (sockets i).owner = owner
  | .segment _ srcIp _ data =>
    match target sockets srcIp data with
    | some (incoming, slot) => slot = i && ends (sockets i) incoming
    | none => false
  | _ => false

/-- A change that neither opens the slot nor completes or hands out a connection. -/
structure Calm (old new : Socket) : Prop where
  isListener : new.isListener = old.isListener
  acceptSlot : new.acceptSlot = old.acceptSlot
  inUse : new.inUse = true → old.inUse = true
  synReceived : new.state = .synReceived → old.state = .synReceived
  established : new.inUse = true → old.state = .established ∨ old.state = .closeWait →
    new.state = .established ∨ new.state = .closeWait

section

variable {sockets : Sockets} {op : Operation} {i j : Slot} {s : Socket} {env : Env}
  {incoming : Segment} {srcIp dstIp : Ip} {data : List Byte}

theorem Calm.refl (s : Socket) : Calm s s := ⟨rfl, rfl, id, id, fun _ h => h⟩

theorem Calm.update (h : Calm (sockets j) s) (i : Slot) :
    Calm (sockets i) (update sockets j s i) := by
  by_cases hi : i = j
  · subst hi
    rwa [update_self]
  · rw [update_of_ne hi]
    exact .refl _

theorem Calm.closed {old new : Socket} (hl : new.isListener = old.isListener)
    (ha : new.acceptSlot = old.acceptSlot) (hu : new.inUse = false) (hs : new.state = .closed) :
    Calm old new := by
  refine ⟨hl, ha, ?_, ?_, ?_⟩ <;> simp [hu, hs]

theorem calm_close (env : Env) (s : Socket) : Calm s (closeLocked env s) := by
  refine .closed ?_ ?_ rfl rfl <;> unfold closeLocked <;> dsimp only <;> split <;> simp

theorem calm_synSent (hstate : s.state = .synSent) : Calm s (handleSynSent env s incoming) := by
  unfold handleSynSent
  split
  · exact .refl _
  · dsimp only
    split
    · refine ⟨?_, ?_, ?_, ?_, ?_⟩ <;> simp [hstate]
    · refine .closed ?_ ?_ ?_ ?_ <;> simp

theorem calm_established (hstate : s.state = .established) :
    Calm s (handleEstablished env s incoming) := by
  unfold handleEstablished
  split
  · exact .closed rfl rfl rfl rfl
  · split
    · exact .refl _
    · dsimp only
      split <;> split <;> refine ⟨?_, ?_, ?_, ?_, ?_⟩ <;> simp [hstate]

theorem calm_finWait (hstate : s.state = .finWait1 ∨ s.state = .finWait2) :
    Calm s (handleFinWait env s incoming) := by
  unfold handleFinWait
  dsimp only
  split
  · refine .closed ?_ ?_ rfl rfl <;> simp only [send_isListener, send_acceptSlot] <;>
      split <;> split <;> rfl
  · split <;> split <;> refine ⟨?_, ?_, ?_, ?_, ?_⟩ <;> grind

theorem calm_lastAck : Calm s (handleLastAck s incoming) := by
  unfold handleLastAck
  split
  · exact .closed rfl rfl rfl rfl
  · exact .refl _

theorem calm_synReceived (hno : completes sockets (.segment env srcIp dstIp data) = none)
    (htarget : target sockets srcIp data = some (incoming, j))
    (hstate : (sockets j).state = .synReceived) (i : Slot) :
    Calm (sockets i) (handleSynReceived sockets j incoming i) := by
  simp only [completes, htarget, hstate] at hno
  unfold handleSynReceived
  split
  · refine Calm.update ?_ i
    exact .closed rfl rfl rfl rfl
  · split
    · exact .refl _
    · split
      · exact .refl _
      · grind

theorem calm_perform (hopen : opened sockets op ≠ some i) (hno : completes sockets op = none)
    (htaken : ∀ j, taken sockets op ≠ some (i, j)) : Calm (sockets i) (perform sockets op i) := by
  have heffect := perform_effect sockets op i
  generalize perform sockets op i = s at heffect ⊢
  cases heffect with
  | opened h => exact absurd h hopen
  | waits _ _ h => exact ⟨rfl, h.symm, fun h => h, fun h => h, fun _ h => h⟩
  | @takes _ _ _ j howned hl h => exact absurd (by simp [taken, howned, hl, h]) (htaken j)
  | sends => refine ⟨?_, ?_, ?_, ?_, ?_⟩ <;> simp
  | receives =>
    rw [rxPop_rest]
    exact ⟨rfl, rfl, fun h => h, fun h => h, fun _ h => h⟩
  | closes | closesAll => exact calm_close ..
  | kept | reowned => exact ⟨rfl, rfl, fun h => h, fun h => h, fun _ h => h⟩
  | synSent h hstate => exact calm_synSent hstate
  | synReceived h hstate => exact calm_synReceived hno h hstate i
  | established h hstate => exact calm_established hstate
  | finWait h hstate => exact calm_finWait hstate
  | lastAck => exact calm_lastAck

theorem update_inUse (h : j = i → (sockets j).inUse = true → s.inUse = true)
    (hin : (sockets i).inUse = true) : (update sockets j s i).inUse = true := by
  by_cases hi : j = i
  · subst hi
    rw [update_self]
    exact h rfl hin
  · rwa [update_of_ne (Ne.symm hi)]

theorem handleSynReceived_inUse (h : j = i → incoming.flags.rst = false)
    (hin : (sockets i).inUse = true) : (handleSynReceived sockets j incoming i).inUse = true := by
  unfold handleSynReceived
  split
  · next hrst =>
    refine update_inUse (fun heq => ?_) hin
    rw [h heq] at hrst
    cases hrst
  · split
    · exact hin
    · split
      · exact hin
      · rw [announce_rest]
        exact update_inUse (fun _ h => h) hin

theorem handle_inUse (env : Env) (hends : ends s incoming = false) :
    (s.state = .synSent → (handleSynSent env s incoming).inUse = s.inUse) ∧
    (s.state = .established → (handleEstablished env s incoming).inUse = s.inUse) ∧
    (s.state = .finWait1 ∨ s.state = .finWait2 →
      (handleFinWait env s incoming).inUse = s.inUse) ∧
    (s.state = .closeWait ∨ s.state = .lastAck →
      (handleLastAck s incoming).inUse = s.inUse) := by
  refine ⟨fun hstate => ?_, fun hstate => ?_, fun hstate => ?_, fun hstate => ?_⟩
  · simp only [ends, hstate] at hends
    unfold handleSynSent
    grind [send_inUse]
  · simp only [ends, hstate] at hends
    simp only [handleEstablished, hends]
    grind [send_inUse, rxPush_inUse]
  · have hfin : incoming.flags.fin = false := by
      rcases hstate with hstate | hstate <;> simpa only [ends, hstate] using hends
    simp only [handleFinWait, hfin]
    grind
  · have hack : ¬(incoming.flags.ack = true ∧ incoming.ack = s.sndNxt) := by
      rcases hstate with hstate | hstate <;> simpa [ends, hstate] using hends
    rw [handleLastAck, if_neg hack]

theorem perform_inUse (hfree : frees sockets op i = false) (hin : (sockets i).inUse = true) :
    (perform sockets op i).inUse = true := by
  have heffect := perform_effect sockets op i
  generalize perform sockets op i = s at heffect ⊢
  cases heffect with
  | opened _ h => exact h
  | sends => exact (send_inUse ..).trans hin
  | receives =>
    rw [rxPop_rest]
    exact hin
  | closes h => simp [frees, h] at hfree
  | closesAll _ h => simp [frees, hin, h] at hfree
  | kept | waits | takes | reowned => exact hin
  | synReceived h hstate =>
    refine handleSynReceived_inUse (fun heq => ?_) hin
    subst heq
    simpa [frees, h, ends, hstate] using hfree
  | synSent h hstate =>
    exact ((handle_inUse _ (by simpa [frees, h] using hfree)).1 hstate).trans hin
  | established h hstate =>
    exact ((handle_inUse _ (by simpa [frees, h] using hfree)).2.1 hstate).trans hin
  | finWait h hstate =>
    exact ((handle_inUse _ (by simpa [frees, h] using hfree)).2.2.1 hstate).trans hin
  | @lastAck env _ _ _ _ h hstate =>
    exact ((handle_inUse env (by simpa [frees, h] using hfree)).2.2.2 hstate).trans hin

theorem perform_frees (h : frees sockets op i = true) : (perform sockets op i).inUse = false := by
  cases op with
  | closeSocket env owner id =>
    have howned : ownedLocked sockets owner id = some i := by simpa [frees] using h
    simp [perform, closeSocket, howned, closeLocked]
  | closeAllOwnedBy env owner =>
    have howned : (sockets i).inUse = true ∧ (sockets i).owner = owner := by
      simpa [frees] using h
    simp [perform, closeAllOwnedBy, howned, closeLocked]
  | segment env srcIp dstIp data =>
    simp only [frees] at h
    cases htarget : target sockets srcIp data with
    | none => simp [htarget] at h
    | some found =>
      obtain ⟨incoming, slot⟩ := found
      simp only [htarget, Bool.and_eq_true, decide_eq_true_eq] at h
      obtain ⟨rfl, hends⟩ := h
      simp only [target, bind_eq_bind, bind_eq_some_iff, Option.pure_def,
        some.injEq, Prod.mk.injEq] at htarget
      obtain ⟨parsed, hparse, found, hfind, rfl, rfl⟩ := htarget
      simp only [perform, handleSegment, hparse, hfind, dispatch]
      unfold ends at hends
      cases hstate : (sockets found).state <;> simp only [hstate] at hends ⊢
      · cases hends
      · cases hends
      · simp only [Bool.and_eq_true, Bool.not_eq_true'] at hends
        simp [handleSynSent, hends]
      · simp [handleSynReceived, hends]
      · simp [handleEstablished, hends]
      · simp [handleFinWait, hends]
      · simp [handleFinWait, hends]
      · simp only [Bool.and_eq_true, decide_eq_true_eq] at hends
        simp [handleLastAck, hends]
      · simp only [Bool.and_eq_true, decide_eq_true_eq] at hends
        simp [handleLastAck, hends]
      · cases hends
  | _ => cases h

/-- An opened slot was free and holds a socket with nothing announced and nobody waiting. -/
theorem perform_opened (h : opened sockets op = some i) :
    (sockets i).inUse = false ∧ completes sockets op = none ∧ taken sockets op = none ∧
      (∀ k, k ≠ i → perform sockets op k = sockets k) ∧
      (perform sockets op i).acceptSlot = none ∧ (perform sockets op i).waiters = [] ∧
      ((perform sockets op i).isListener = true → (perform sockets op i).state = .listen) := by
  cases op with
  | openListener owner port =>
    simp only [opened] at h
    simp only [perform, openListener, h]
    exact ⟨allocSlot_free h, rfl, rfl, fun k hk => update_of_ne hk .., by simp, by simp, by simp⟩
  | openConnect env owner srcPort dstIp dstPort =>
    simp only [opened] at h
    split at h
    · cases h
    · next hup =>
      simp only [perform, openConnect, if_neg hup, h]
      exact ⟨allocSlot_free h, rfl, rfl, fun k hk => update_of_ne hk .., by simp, by simp, by simp⟩
  | segment env srcIp dstIp data =>
    simp only [opened, bind_eq_bind, bind_eq_some_iff] at h
    obtain ⟨incoming, hparse, slot, hfind, hslot⟩ := h
    split at hslot
    · next hsyn =>
      have htarget : target sockets srcIp data = some (incoming, slot) := by
        simp [target, hparse, hfind]
      have hno : ¬(!incoming.flags.syn ∨ incoming.flags.ack) := by grind
      simp only [perform, handleSegment, hparse, hfind, dispatch, hsyn.1, handleListen, hslot,
        if_neg hno]
      exact ⟨allocSlot_free hslot, by simp [completes, htarget, hsyn.1], rfl,
        fun k hk => update_of_ne hk .., by simp, by simp, by simp⟩
    · cases hslot
  | _ => cases h

theorem findSocketIn_inUse {dstPort srcPort : Port} {slots : List Slot} {listener : Option Slot}
    (h : findSocketIn sockets dstPort srcIp srcPort slots listener = some i) :
    listener = some i ∨ (sockets i).inUse = true := by
  induction slots generalizing listener with
  | nil => exact .inl h
  | cons k slots ih =>
    simp only [findSocketIn] at h
    split at h
    · exact ih h
    · next hin =>
      split at h
      · exact ih h
      · split at h
        · rcases ih h with heq | hi
          · cases heq
            exact .inr (by simpa using hin)
          · exact .inr hi
        · split at h
          · cases h
            exact .inr (by simpa using hin)
          · exact ih h

theorem findSocket_inUse {dstPort srcPort : Port}
    (h : findSocket sockets dstPort srcIp srcPort = some i) : (sockets i).inUse = true := by
  rcases findSocketIn_inUse h with hnone | hin
  · cases hnone
  · exact hin

/-- Who is told of a completed handshake does not depend on the connection itself. -/
theorem announcedTo_update (hold : (sockets j).state ≠ .listen) (hnew : s.state ≠ .listen)
    (port : Port) : announcedTo (update sockets j s) port = announcedTo sockets port := by
  unfold announcedTo
  congr 1
  funext l
  by_cases hl : l = j
  · subst hl
    simp [hold, hnew]
  · simp [update_of_ne hl]

theorem perform_completes (h : completes sockets op = some j) :
    (sockets j).inUse = true ∧ (sockets j).state = .synReceived ∧ opened sockets op = none ∧
      taken sockets op = none ∧ ∃ s, s.inUse = (sockets j).inUse ∧
        s.isListener = (sockets j).isListener ∧ s.acceptSlot = (sockets j).acceptSlot ∧
        s.state = .established ∧
        announcedTo (update sockets j s) (sockets j).localPort =
          announcedTo sockets (sockets j).localPort ∧
        perform sockets op =
          announce (update sockets j s) j (sockets j).localPort := by
  cases op with
  | segment env srcIp dstIp data =>
    simp only [completes] at h
    cases htarget : target sockets srcIp data with
    | none => simp [htarget] at h
    | some found =>
      obtain ⟨incoming, slot⟩ := found
      simp only [htarget] at h
      split at h
      · next hdone =>
        cases h
        obtain ⟨hstate, hrst, hack, hnxt⟩ := hdone
        simp only [target, bind_eq_bind, bind_eq_some_iff, Option.pure_def,
          some.injEq, Prod.mk.injEq] at htarget
        obtain ⟨parsed, hparse, found, hfind, rfl, rfl⟩ := htarget
        refine ⟨findSocket_inUse hfind, hstate, by simp [opened, hparse, hfind, hstate], rfl,
          { sockets found with sndUna := parsed.ack, state := .established },
          rfl, rfl, rfl, rfl, announcedTo_update (by simp [hstate]) (by simp) _, ?_⟩
        simp only [perform, handleSegment, hparse, hfind, dispatch, hstate, handleSynReceived,
          hack, hnxt]
        simp only [Bool.not_eq_true'] at hrst
        simp [hrst]
      · cases h
  | _ => cases h

theorem ownedLocked_eq_some {owner : Owner} {id : Nat} (h : ownedLocked sockets owner id = some i) :
    (sockets i).inUse = true ∧ (sockets i).owner = owner ∧ id = i := by
  unfold ownedLocked at h
  split at h
  · split at h
    · next hu =>
      cases h
      exact ⟨hu.1, hu.2, rfl⟩
    · cases h
  · cases h

theorem perform_taken {l : Slot} (h : taken sockets op = some (l, j)) :
    (sockets l).inUse = true ∧ (sockets l).isListener = true ∧ (sockets l).acceptSlot = some j ∧
      opened sockets op = none ∧ completes sockets op = none ∧
      perform sockets op = update sockets l { sockets l with acceptSlot := none } := by
  cases op with
  | accept task owner id =>
    simp only [taken] at h
    cases howned : ownedLocked sockets owner id with
    | none => simp [howned] at h
    | some k =>
      simp only [howned] at h
      split at h
      · next hl =>
        obtain ⟨slot, hslot, heq⟩ := map_eq_some_iff.mp h
        cases heq
        refine ⟨(ownedLocked_eq_some howned).1, hl, hslot, rfl, rfl, ?_⟩
        simp only [perform, accept, howned, hl, hslot]
        simp
      · cases h
  | _ => cases h

end

/-- An open slot with the listener flag is in the listening state. -/
def Listening (sockets : Sockets) : Prop :=
  ∀ i, (sockets i).inUse = true → (sockets i).isListener = true → (sockets i).state = .listen

/-- The slot whose owner an operation changes. -/
def reowns (sockets : Sockets) : Operation → Option Slot
  | .reown fromOwner _ id => ownedLocked sockets fromOwner id
  | _ => none

/-- The task that looks at a socket in `accept`. -/
def looks (sockets : Sockets) : Operation → Option (Task × Slot)
  | .accept task owner id => (ownedLocked sockets owner id).map (task, ·)
  | _ => none

/-- What an operation can do to the wait queue of a slot. -/
inductive Queue (sockets : Sockets) (op : Operation) (l : Slot) (new : Socket) : Prop
  | kept (hwaiters : new.waiters = (sockets l).waiters)
      (hlistener : new.isListener = (sockets l).isListener)
      (hopen : new.inUse = true → (sockets l).inUse = true)
      (hlistens : (sockets l).inUse = true → (sockets l).isListener = true →
        new.inUse = true ∧ new.state = .listen)
      (hslot : ∀ j, new.acceptSlot = some j →
        (sockets l).acceptSlot = some j ∧ taken sockets op ≠ some (l, j))
  | reset (hwaiters : new.waiters = [])
      (hnew : new.inUse = true → new.acceptSlot = none ∧ (new.isListener = true →
        new.state = .listen))
  | blocks {task : Task} (hin : (sockets l).inUse = true) (hl : (sockets l).isListener = true)
      (heq : new = { sockets l with
        acceptSlot := none, waiters := (sockets l).waiters ++ [task] })
  | reowned {owner : Owner} (hop : reowns sockets op = some l)
      (heq : new = { sockets l with owner := owner })
  | announced {j : Slot} (heq : new = { sockets l with
      acceptSlot := some j, waiters := (sockets l).waiters.tail })

section

variable {sockets : Sockets} {op : Operation} {l j : Slot} {new : Socket}

theorem Queue.refl (h : Listening sockets) (hno : taken sockets op = none) :
    Queue sockets op l (sockets l) :=
  .kept rfl rfl id (fun hin hl => ⟨hin, h l hin hl⟩) fun _ hj => ⟨hj, by simp [hno]⟩

/-- A slot that does not listen keeps its queue, whether it stays open or not. -/
theorem Queue.of_not_listen (h : Listening sockets) (hno : taken sockets op = none)
    (hin : (sockets l).inUse = true) (hstate : (sockets l).state ≠ .listen)
    (hwaiters : new.waiters = (sockets l).waiters)
    (hlistener : new.isListener = (sockets l).isListener)
    (hslot : new.acceptSlot = (sockets l).acceptSlot) : Queue sockets op l new :=
  .kept hwaiters hlistener (fun _ => hin) (fun hin hl => absurd (h l hin hl) hstate)
    fun _ hj => ⟨hslot ▸ hj, by simp [hno]⟩

theorem Queue.update (h : Listening sockets) (hno : taken sockets op = none)
    (hj : Queue sockets op j new) : Queue sockets op l (Function.update sockets j new l) := by
  by_cases hl : l = j
  · subst hl
    rwa [update_self]
  · rw [update_of_ne hl]
    exact .refl h hno

variable {env : Env} {srcIp dstIp : Ip} {data : List Byte} {incoming : Segment}

theorem handleSynReceived_queue (h : Listening sockets) (hin : (sockets j).inUse = true)
    (hstate : (sockets j).state = .synReceived) (l : Slot) :
    Queue sockets (.segment env srcIp dstIp data) l (handleSynReceived sockets j incoming l) := by
  have hne : (sockets j).state ≠ .listen := by simp [hstate]
  unfold handleSynReceived
  split
  · exact .update h rfl (.of_not_listen h rfl hin hne rfl rfl rfl)
  · split
    · exact .refl h rfl
    · split
      · exact .refl h rfl
      · unfold announce
        rw [announcedTo_update hne (by simp)]
        have hkept : Queue sockets (.segment env srcIp dstIp data) l (Function.update sockets j
            { sockets j with sndUna := incoming.ack, state := .established } l) :=
          .update h rfl (.of_not_listen h rfl hin hne rfl rfl rfl)
        cases hfirst : announcedTo sockets (sockets j).localPort with
        | none => exact hkept
        | some first =>
          have hlistens := find?_some hfirst
          simp only [Bool.and_eq_true, decide_eq_true_eq] at hlistens
          have hfirstj : first ≠ j := by
            rintro rfl
            exact hne hlistens.1.2
          dsimp only
          by_cases hl : l = first
          · subst hl
            rw [update_self, update_of_ne hfirstj]
            exact .announced rfl
          · rw [update_of_ne hl]
            exact hkept

theorem target_inUse (h : target sockets srcIp data = some (incoming, j)) :
    (sockets j).inUse = true := by
  simp only [target, bind_eq_bind, bind_eq_some_iff, Option.pure_def, some.injEq,
    Prod.mk.injEq] at h
  obtain ⟨parsed, -, found, hfind, -, rfl⟩ := h
  exact findSocket_inUse hfind

theorem perform_queue (h : Listening sockets) (op : Operation) (l : Slot) :
    Queue sockets op l (perform sockets op l) := by
  by_cases hopened : opened sockets op = some l
  · obtain ⟨-, -, -, -, hslot, hwaiters, hlistens⟩ := perform_opened hopened
    exact .reset hwaiters fun _ => ⟨hslot, hlistens⟩
  cases htaken : taken sockets op with
  | some found =>
    obtain ⟨l', j⟩ := found
    obtain ⟨-, -, -, -, -, hperform⟩ := perform_taken htaken
    rw [hperform]
    by_cases hl : l = l'
    · subst hl
      rw [update_self]
      exact .kept rfl rfl id (fun hin hl => ⟨hin, h l hin hl⟩) fun _ hj => by cases hj
    · rw [update_of_ne hl]
      refine .kept rfl rfl id (fun hin hl => ⟨hin, h l hin hl⟩) fun _ hj => ⟨hj, ?_⟩
      rw [htaken]
      exact fun heq => hl (Prod.mk.inj (some.inj heq)).1.symm
  | none =>
    have heffect := perform_effect sockets op l
    generalize perform sockets op l = s at heffect ⊢
    cases heffect with
    | opened hl => exact absurd hl hopened
    | kept => exact .refl h htaken
    | waits howned hl => exact .blocks (ownedLocked_eq_some howned).1 hl rfl
    | takes howned hl hslot => simp [taken, howned, hl, hslot] at htaken
    | sends =>
      refine .kept (by simp) (by simp) (by simp) (fun hin hl => ?_) (by simp [taken])
      exact ⟨by simp [hin], by simp [h l hin hl]⟩
    | receives =>
      rw [rxPop_rest]
      exact .kept rfl rfl id (fun hin hl => ⟨hin, h l hin hl⟩) fun _ hj => ⟨hj, by simp [taken]⟩
    | closes | closesAll => exact .reset rfl (by simp [closeLocked])
    | reowned howned => exact .reowned howned rfl
    | synSent hfound hstate =>
      refine .of_not_listen h rfl (target_inUse hfound) (by simp [hstate]) ?_ ?_ ?_ <;>
        unfold handleSynSent <;> split <;> (try split) <;> simp
    | synReceived hfound hstate => exact handleSynReceived_queue h (target_inUse hfound) hstate l
    | established hfound hstate =>
      refine .of_not_listen h rfl (target_inUse hfound) (by simp [hstate]) ?_ ?_ ?_ <;>
        unfold handleEstablished <;> split <;> (try split) <;> dsimp only <;>
        (try split) <;> (try split) <;> simp
    | finWait hfound hstate =>
      have hne : (sockets l).state ≠ .listen := by
        rcases hstate with hstate | hstate <;> simp [hstate]
      refine .of_not_listen h rfl (target_inUse hfound) hne ?_ ?_ ?_ <;>
        unfold handleFinWait <;> dsimp only <;> split <;> split <;> split <;> simp
    | lastAck hfound hstate =>
      have hne : (sockets l).state ≠ .listen := by
        rcases hstate with hstate | hstate <;> simp [hstate]
      refine .of_not_listen h rfl (target_inUse hfound) hne ?_ ?_ ?_ <;>
        unfold handleLastAck <;> split <;> rfl

end

/-- The table with the tasks that were woken from the queue of a listener and have not looked at it
again, and the history of its connections: the serial number of the socket in each slot, the
listener it was made to, the connections whose handshake was completed while that listener was open,
and those that `accept` returned. -/
structure Backlog where
  sockets : Sockets
  woken : Slot → List Task
  serial : Nat
  born : Slot → Nat
  listener : Slot → Option Nat
  completed : List Nat
  returned : List Nat

namespace Backlog

/-- The listener that a new socket is made to. -/
def madeTo (b : Backlog) : Operation → Option Nat
  | .segment _ srcIp _ data => (target b.sockets srcIp data).map fun found => b.born found.2
  | _ => none

def ListenerOpen (b : Backlog) (j : Slot) : Prop :=
  ∃ l, (b.sockets l).inUse ∧ b.listener j = some (b.born l)
  deriving Decidable

/-- The tasks in front of the queue that the operation took from it, and those woken before. -/
def wokenAfter (b : Backlog) (op : Operation) (l : Slot) : List Task :=
  if opened b.sockets op = some l then []
  else
    (b.woken l).filter (fun task => looks b.sockets op ≠ some (task, l)) ++
      (b.sockets l).waiters.take
        ((b.sockets l).waiters.length - (perform b.sockets op l).waiters.length)

def after (b : Backlog) (op : Operation) : Backlog where
  sockets := perform b.sockets op
  woken := b.wokenAfter op
  serial := if (opened b.sockets op).isSome then b.serial + 1 else b.serial
  born := fun i => if opened b.sockets op = some i then b.serial else b.born i
  listener := fun i => if opened b.sockets op = some i then b.madeTo op else b.listener i
  completed :=
    match completes b.sockets op with
    | some j => if b.ListenerOpen j then b.completed ++ [b.born j] else b.completed
    | none => b.completed
  returned :=
    match taken b.sockets op with
    | some (_, j) => b.returned ++ [b.born j]
    | none => b.returned

def next (b : Backlog) (op : Operation) : Option Backlog := some (b.after op)

structure Initial (b : Backlog) : Prop where
  sockets : ∀ i, b.sockets i = {}
  woken : ∀ i, b.woken i = []
  serial : b.serial = TCP_MAX
  born : ∀ i, b.born i = i
  listener : ∀ i, b.listener i = none
  completed : b.completed = []
  returned : b.returned = []

def system : System Backlog Operation := .ofNext Initial next

/-- A handshake is completed only when the listener that it was made to comes first on its port
and has nothing announced, or when nobody listens there any more; and an announced connection is
closed only together with its listener. A listener is given to another owner only while nobody
sleeps on it or was woken from it. -/
def Orderly (b : Backlog) (op : Operation) : Prop :=
  (∀ j, completes b.sockets op = some j →
    (∃ l, announcedTo b.sockets (b.sockets j).localPort = some l ∧
      b.listener j = some (b.born l) ∧ (b.sockets l).acceptSlot = none) ∨
    ¬b.ListenerOpen j ∧ announcedTo b.sockets (b.sockets j).localPort = none) ∧
  (∀ l j, (b.sockets l).inUse → (b.sockets l).isListener →
    (b.sockets l).acceptSlot = some j → frees b.sockets op j → frees b.sockets op l) ∧
  ∀ l, reowns b.sockets op = some l → (b.sockets l).isListener →
    (b.sockets l).waiters = [] ∧ b.woken l = []
  deriving Decidable

structure Sound (b : Backlog) : Prop where
  born_lt : ∀ i, b.born i < b.serial
  born_inj : ∀ i j, b.born i = b.born j → i = j
  listener_lt : ∀ j p, b.listener j = some p → p < b.serial
  completed_lt : ∀ c ∈ b.completed, c < b.serial
  returned : ∀ c ∈ b.returned, c ∈ b.completed
  nodup : b.returned.Nodup
  synReceived : ∀ j, (b.sockets j).state = .synReceived → b.born j ∉ b.completed
  open_ : ∀ j, (b.sockets j).inUse → b.born j ∈ b.completed →
    (b.sockets j).state = .established ∨ (b.sockets j).state = .closeWait
  announced : ∀ l j, (b.sockets l).inUse → (b.sockets l).isListener →
    (b.sockets l).acceptSlot = some j →
      (b.sockets j).inUse ∧ b.listener j = some (b.born l) ∧ b.born j ∈ b.completed ∧
        b.born j ∉ b.returned
  waiting : ∀ j l, (b.sockets j).inUse → b.born j ∈ b.completed → (b.sockets l).inUse →
    b.listener j = some (b.born l) → b.born j ∉ b.returned →
      (b.sockets l).isListener ∧ (b.sockets l).acceptSlot = some j

variable {b b' : Backlog} {op : Operation}

theorem Initial.sound (h : b.Initial) : b.Sound := by
  refine ⟨?_, ?_, ?_, ?_, ?_, ?_, ?_, ?_, ?_, ?_⟩
  · intro i
    rw [h.born, h.serial]
    exact i.isLt
  · intro i j heq
    rw [h.born, h.born] at heq
    exact Fin.ext heq
  all_goals simp [h.sockets, h.listener, h.completed, h.returned]

section

variable (h : b.Sound)
include h

theorem Sound.open {i : Slot} (hi : opened b.sockets op = some i)
    (hnext : b.next op = some b') : b'.Sound := by
  obtain ⟨hfree, hno, htaken, hother, hslot, -⟩ := perform_opened hi
  obtain rfl := some.inj hnext
  have hborn : b.serial ∉ b.completed := fun hmem => lt_irrefl _ (h.completed_lt _ hmem)
  have hmade (p : Nat) (hp : b.madeTo op = some p) : p < b.serial := by
    unfold madeTo at hp
    split at hp
    · obtain ⟨found, -, rfl⟩ := map_eq_some_iff.mp hp
      exact h.born_lt _
    · cases hp
  simp only [after, hi, hno, htaken, isSome_some, if_true, some.injEq]
  refine ⟨?_, ?_, ?_, ?_, h.returned, h.nodup, ?_, ?_, ?_, ?_⟩ <;> dsimp only
  · intro k
    split
    · exact Nat.lt_succ_self _
    · exact Nat.lt_succ_of_lt (h.born_lt k)
  · intro j k heq
    have hj := h.born_lt j
    have hk := h.born_lt k
    have hinj := h.born_inj j k
    grind
  · intro j p hp
    split at hp
    · exact Nat.lt_succ_of_lt (hmade p hp)
    · exact Nat.lt_succ_of_lt (h.listener_lt j p hp)
  · exact fun c hc => Nat.lt_succ_of_lt (h.completed_lt c hc)
  · intro j hstate
    by_cases hj : i = j
    · rwa [if_pos hj]
    · rw [if_neg hj]
      rw [hother j (Ne.symm hj)] at hstate
      exact h.synReceived j hstate
  · intro j hin hmem
    by_cases hj : i = j
    · rw [if_pos hj] at hmem
      exact absurd hmem hborn
    · rw [if_neg hj] at hmem
      rw [hother j (Ne.symm hj)] at hin ⊢
      exact h.open_ j hin hmem
  · intro l j hin hl hslot'
    by_cases hlopen : i = l
    · rw [← hlopen, hslot] at hslot'
      cases hslot'
    · rw [hother l (Ne.symm hlopen)] at hin hl hslot'
      obtain ⟨hj, hmadeTo, hdone, hnot⟩ := h.announced l j hin hl hslot'
      have hne : i ≠ j := by
        intro heq
        rw [← heq, hfree] at hj
        cases hj
      rw [if_neg hlopen, if_neg hne, if_neg hne, hother j (Ne.symm hne)]
      exact ⟨hj, hmadeTo, hdone, hnot⟩
  · intro j l hin hmem hlin hmadeTo hnot
    by_cases hj : i = j
    · rw [if_pos hj] at hmem
      exact absurd hmem hborn
    · rw [if_neg hj] at hmem hmadeTo hnot
      by_cases hlopen : i = l
      · rw [if_pos hlopen] at hmadeTo
        exact absurd (h.listener_lt j _ hmadeTo) (lt_irrefl _)
      · rw [if_neg hlopen] at hmadeTo
        rw [hother j (Ne.symm hj)] at hin
        rw [hother l (Ne.symm hlopen)] at hlin ⊢
        exact h.waiting j l hin hmem hlin hmadeTo hnot

theorem Sound.calm (hopen : opened b.sockets op = none)
    (hno : completes b.sockets op = none) (htaken : taken b.sockets op = none)
    (horderly : b.Orderly op) (hnext : b.next op = some b') : b'.Sound := by
  have hcalm (i : Slot) : Calm (b.sockets i) (perform b.sockets op i) :=
    calm_perform (by simp [hopen]) hno (by simp [htaken])
  obtain rfl := some.inj hnext
  simp only [after, hopen, hno, htaken, isSome_none, Bool.false_eq_true, if_false, reduceCtorEq]
  refine { h with synReceived := ?_, open_ := ?_, announced := ?_, waiting := ?_ }
    <;> dsimp only
  · exact fun j hstate => h.synReceived j ((hcalm j).synReceived hstate)
  · exact fun j hin hmem => (hcalm j).established hin (h.open_ j ((hcalm j).inUse hin) hmem)
  · intro l j hin hl hslot
    have hlin := (hcalm l).inUse hin
    rw [(hcalm l).isListener] at hl
    rw [(hcalm l).acceptSlot] at hslot
    obtain ⟨hj, hrest⟩ := h.announced l j hlin hl hslot
    refine ⟨?_, hrest⟩
    -- If the connection were closed, so would be the listener.
    cases hfree : frees b.sockets op j with
    | false => exact perform_inUse hfree hj
    | true =>
      have hclosed := perform_frees (horderly.2.1 l j hlin hl hslot hfree)
      rw [hclosed] at hin
      cases hin
  · intro j l hin hmem hlin hmadeTo hnot
    rw [(hcalm l).isListener, (hcalm l).acceptSlot]
    exact h.waiting j l ((hcalm j).inUse hin) hmem ((hcalm l).inUse hlin) hmadeTo hnot

theorem Sound.take {l j : Slot} (htaken : taken b.sockets op = some (l, j))
    (hnext : b.next op = some b') : b'.Sound := by
  obtain ⟨hlin, hl, hslot, hopen, hno, hperform⟩ := perform_taken htaken
  obtain ⟨hj, hmadeTo, hdone, hnot⟩ := h.announced l j hlin hl hslot
  obtain rfl := some.inj hnext
  -- Only the announcement of the listener changes.
  have hfields (k : Slot) : (perform b.sockets op k).inUse = (b.sockets k).inUse ∧
      (perform b.sockets op k).state = (b.sockets k).state ∧
      (perform b.sockets op k).isListener = (b.sockets k).isListener ∧
      (perform b.sockets op k).acceptSlot = if k = l then none else (b.sockets k).acceptSlot := by
    rw [hperform]
    by_cases hk : k = l
    · subst hk
      simp
    · simp [hk]
  simp only [after, hopen, hno, htaken, isSome_none, Bool.false_eq_true, if_false, reduceCtorEq]
  refine ⟨h.born_lt, h.born_inj, h.listener_lt, h.completed_lt, ?_, ?_, ?_, ?_, ?_, ?_⟩
    <;> dsimp only
  · intro c hc
    rcases mem_append.mp hc with hc | hc
    · exact h.returned c hc
    · rwa [mem_singleton.mp hc]
  · exact nodup_append.mpr ⟨h.nodup, by simp, by grind⟩
  · intro k
    rw [(hfields k).2.1]
    exact h.synReceived k
  · intro k
    rw [(hfields k).1, (hfields k).2.1]
    exact h.open_ k
  · intro k i hin hlk hk
    rw [(hfields k).1] at hin
    rw [(hfields k).2.2.1] at hlk
    rw [(hfields k).2.2.2] at hk
    split at hk
    · cases hk
    · next hne =>
      obtain ⟨hi, hmade, hdone', hnot'⟩ := h.announced k i hin hlk hk
      rw [(hfields i).1]
      refine ⟨hi, hmade, hdone', fun hmem => ?_⟩
      rcases mem_append.mp hmem with hmem | hmem
      · exact hnot' hmem
      · -- A connection is announced to the one listener that it was made to.
        have hij := h.born_inj i j (mem_singleton.mp hmem)
        rw [hij, hmadeTo, some.injEq] at hmade
        exact hne (h.born_inj l k hmade).symm
  · intro i k hin hmem hkin hmade hnot'
    rw [(hfields i).1] at hin
    rw [(hfields k).1] at hkin
    rw [mem_append, not_or, mem_singleton] at hnot'
    obtain ⟨hlk, hk⟩ := h.waiting i k hin hmem hkin hmade hnot'.1
    have hne : k ≠ l := by
      intro heq
      rw [heq, hslot, some.injEq] at hk
      exact hnot'.2 (by rw [hk])
    rw [(hfields k).2.2.1, (hfields k).2.2.2, if_neg hne]
    exact ⟨hlk, hk⟩

/-- What a completed handshake changes: the connection's state, and the announcement of the
listener that it was made to if that is open. -/
theorem Sound.complete_cases {j : Slot} (hdone : completes b.sockets op = some j)
    (horderly : b.Orderly op) (k : Slot) :
    (perform b.sockets op k).inUse = (b.sockets k).inUse ∧
    (perform b.sockets op k).isListener = (b.sockets k).isListener ∧
    (perform b.sockets op k).state = (if k = j then .established else (b.sockets k).state) ∧
    ((b.sockets k).inUse →
      (perform b.sockets op k).acceptSlot = (b.sockets k).acceptSlot ∧
        ¬(b.ListenerOpen j ∧ b.listener j = some (b.born k)) ∨
      (perform b.sockets op k).acceptSlot = some j ∧ (b.sockets k).acceptSlot = none ∧
        (b.sockets k).isListener ∧ b.ListenerOpen j ∧ b.listener j = some (b.born k)) := by
  obtain ⟨-, hsyn, -, -, s, hs, hsl, hsa, hest, hann, hperform⟩ := perform_completes hdone
  have hslot : (update b.sockets j s k).acceptSlot = (b.sockets k).acceptSlot := by
    by_cases hk : k = j
    · subst hk
      rw [update_self, hsa]
    · rw [update_of_ne hk]
  have hfields : (update b.sockets j s k).inUse = (b.sockets k).inUse ∧
      (update b.sockets j s k).isListener = (b.sockets k).isListener ∧
      (update b.sockets j s k).state = if k = j then .established else (b.sockets k).state := by
    by_cases hk : k = j
    · subst hk
      simp [hs, hsl, hest]
    · simp [hk]
  rw [hperform]
  refine ⟨?_, ?_, ?_, fun hin => ?_⟩
  · rw [announce_rest, hfields.1]
  · rw [announce_rest, hfields.2.1]
  · rw [announce_rest, hfields.2.2]
  · rcases horderly.1 j hdone with ⟨l, hl, hmadeTo, hempty⟩ | ⟨hclosed, hnone⟩
    · have hlistens := find?_some hl
      simp only [Bool.and_eq_true] at hlistens
      simp only [announce, hann, hl]
      by_cases hk : k = l
      · subst hk
        rw [update_self]
        exact .inr ⟨rfl, hempty, hlistens.1.1, ⟨k, hin, hmadeTo⟩, hmadeTo⟩
      · rw [update_of_ne hk, hslot]
        refine .inl ⟨rfl, fun hopen => hk ?_⟩
        rw [hmadeTo, some.injEq] at hopen
        exact (h.born_inj l k hopen.2).symm
    · simp only [announce, hann, hnone]
      exact .inl ⟨hslot, fun hopen => hclosed hopen.1⟩

theorem Sound.complete {j : Slot} (hdone : completes b.sockets op = some j)
    (horderly : b.Orderly op) (hnext : b.next op = some b') : b'.Sound := by
  obtain ⟨hjin, hsyn, hopen, htaken, -⟩ := perform_completes hdone
  have hcases := h.complete_cases hdone horderly
  have hnew := h.synReceived j hsyn
  have hnotReturned : b.born j ∉ b.returned := fun hmem => hnew (h.returned _ hmem)
  obtain rfl := some.inj hnext
  simp only [after, hopen, hdone, htaken, isSome_none, Bool.false_eq_true, if_false, reduceCtorEq]
  have hcompleted (c : Nat) : c ∈ (if b.ListenerOpen j then b.completed ++ [b.born j]
      else b.completed) ↔ c ∈ b.completed ∨ b.ListenerOpen j ∧ c = b.born j := by
    split
    · next hlistener => simp [hlistener]
    · next hlistener => simp [hlistener]
  have hmem (k : Slot) : b.born k ∈ (if b.ListenerOpen j then b.completed ++ [b.born j]
      else b.completed) ↔ b.born k ∈ b.completed ∨ b.ListenerOpen j ∧ k = j := by
    rw [hcompleted]
    exact or_congr_right (and_congr_right fun _ => ⟨h.born_inj k j, fun heq => by rw [heq]⟩)
  refine ⟨h.born_lt, h.born_inj, h.listener_lt, ?_, ?_, h.nodup, ?_, ?_, ?_, ?_⟩ <;> dsimp only
  · intro c hc
    rcases (hcompleted c).mp hc with hc | ⟨-, rfl⟩
    · exact h.completed_lt c hc
    · exact h.born_lt j
  · exact fun c hc => (hcompleted c).mpr (.inl (h.returned c hc))
  · intro k hstate
    rw [(hcases k).2.2.1] at hstate
    split at hstate
    · cases hstate
    · next hk =>
      rw [hmem, not_or]
      exact ⟨h.synReceived k hstate, fun heq => hk heq.2⟩
  · intro k hin hk
    rw [(hcases k).1] at hin
    rw [(hcases k).2.2.1]
    rw [hmem] at hk
    split
    · exact .inl rfl
    · next hne => exact h.open_ k hin (hk.resolve_right fun heq => hne heq.2)
  · intro k i hin hk hann
    rw [(hcases k).1] at hin
    rw [(hcases k).2.1] at hk
    rw [(hcases i).1, hmem]
    rcases (hcases k).2.2.2 hin with ⟨hslot, -⟩ | ⟨hslot, -, -, hlistener, hmadeTo⟩
    · rw [hslot] at hann
      obtain ⟨hi, hmade, hc, hnot⟩ := h.announced k i hin hk hann
      exact ⟨hi, hmade, .inl hc, hnot⟩
    · rw [hslot] at hann
      cases hann
      exact ⟨hjin, hmadeTo, .inr ⟨hlistener, rfl⟩, hnotReturned⟩
  · intro i k hin hi hkin hmade hnot
    rw [(hcases i).1] at hin
    rw [(hcases k).1] at hkin
    rw [(hcases k).2.1]
    rw [hmem] at hi
    rcases (hcases k).2.2.2 hkin with ⟨hslot, hother⟩ | ⟨hslot, hempty, hl, -, hmadeTo⟩
    · rw [hslot]
      rcases hi with hi | ⟨hlistener, rfl⟩
      · exact h.waiting i k hin hi hkin hmade hnot
      · exact absurd ⟨hlistener, hmade⟩ hother
    · rw [hslot]
      rcases hi with hi | ⟨-, rfl⟩
      · rw [(h.waiting i k hin hi hkin hmade hnot).2] at hempty
        cases hempty
      · exact ⟨hl, rfl⟩

theorem Sound.next (horderly : b.Orderly op) (hnext : b.next op = some b') : b'.Sound := by
  cases hopen : opened b.sockets op with
  | some i => exact h.open hopen hnext
  | none =>
    cases hdone : completes b.sockets op with
    | some j => exact h.complete hdone horderly hnext
    | none =>
      cases htaken : taken b.sockets op with
      | some found => exact h.take (l := found.1) (j := found.2) htaken hnext
      | none => exact h.calm hopen hdone htaken horderly hnext

end

/-- Whoever sleeps does so on an open listener, and if a connection is announced there, another task
has been woken and not looked yet. -/
structure Attended (b : Backlog) : Prop where
  listening : Listening b.sockets
  asleep : ∀ l, (b.sockets l).waiters ≠ [] →
    (b.sockets l).inUse = true ∧ (b.sockets l).isListener = true
  woken : ∀ l j, (b.sockets l).inUse = true → (b.sockets l).isListener = true →
    (b.sockets l).acceptSlot = some j → (b.sockets l).waiters = [] ∨ b.woken l ≠ []

theorem Initial.attended (h : b.Initial) : b.Attended := by
  refine ⟨?_, ?_, ?_⟩ <;> simp [Listening, h.sockets]

section

variable (h : b.Attended)
include h

theorem Attended.listening_after : Listening (perform b.sockets op) := by
  intro i hin hl
  cases perform_queue h.listening op i with
  | kept _ hlistener hopen hlistens => exact (hlistens (hopen hin) (hlistener ▸ hl)).2
  | reset _ hnew => exact (hnew hin).2 hl
  | blocks _ _ heq | reowned _ heq | announced heq =>
    rw [heq] at hin hl ⊢
    exact h.listening i hin hl

theorem Attended.asleep_after {l : Slot} (hwaiters : (perform b.sockets op l).waiters ≠ []) :
    (perform b.sockets op l).inUse = true ∧ (perform b.sockets op l).isListener = true := by
  cases perform_queue h.listening op l with
  | kept hkept hlistener _ hlistens =>
    obtain ⟨hin, hl⟩ := h.asleep l (hkept ▸ hwaiters)
    exact ⟨(hlistens hin hl).1, hlistener.trans hl⟩
  | reset hnone => exact absurd hnone hwaiters
  | blocks hin hl heq =>
    rw [heq]
    exact ⟨hin, hl⟩
  | reowned hop heq =>
    rw [heq] at hwaiters ⊢
    exact h.asleep l hwaiters
  | announced heq =>
    rw [heq] at hwaiters ⊢
    refine h.asleep l fun hnone => hwaiters ?_
    simp [hnone]

variable (horderly : b.Orderly op)
include horderly

/-- A woken task has not looked yet, or it takes the connection. -/
theorem Attended.woken_after {l j : Slot} (hin : (perform b.sockets op l).inUse = true)
    (hl : (perform b.sockets op l).isListener = true)
    (hslot : (perform b.sockets op l).acceptSlot = some j) :
    (perform b.sockets op l).waiters = [] ∨ b.wokenAfter op l ≠ [] := by
  by_cases hopened : opened b.sockets op = some l
  · exact .inl (perform_opened hopened).2.2.2.2.2.1
  rw [wokenAfter, if_neg hopened]
  cases perform_queue h.listening op l with
  | kept hwaiters hlistener hopen _ hold =>
    obtain ⟨hann, hnot⟩ := hold j hslot
    rw [hlistener] at hl
    rw [hwaiters]
    refine (h.woken l j (hopen hin) hl hann).imp_right fun hwoken => ?_
    refine append_ne_nil_of_left_ne_nil ?_ _
    obtain ⟨task, htask⟩ := exists_mem_of_ne_nil _ hwoken
    refine ne_nil_of_mem (mem_filter.mpr ⟨htask, ?_⟩)
    -- had the task looked, it would have the connection
    refine decide_eq_true fun hlooks => hnot ?_
    cases op with
    | accept task' owner id =>
      obtain ⟨l', howned, heq⟩ := map_eq_some_iff.mp hlooks
      cases heq
      simp [taken, howned, hl, hann]
    | _ => cases hlooks
  | reset _ hnew =>
    rw [(hnew hin).1] at hslot
    cases hslot
  | blocks _ _ heq =>
    rw [heq] at hslot
    cases hslot
  | reowned hop heq =>
    rw [heq] at hl ⊢
    exact .inl (horderly.2.2 l hop hl).1
  | announced heq =>
    rw [heq]
    cases hqueue : (b.sockets l).waiters with
    | nil => exact .inl rfl
    | cons task tasks => exact .inr (by simp)

theorem Attended.next (hnext : b.next op = some b') : b'.Attended := by
  obtain rfl := some.inj hnext
  exact ⟨h.listening_after, fun _ => h.asleep_after,
    fun _ _ hin hl hslot => h.woken_after horderly hin hl hslot⟩

end

theorem accept_taken {sockets : Sockets} {task : Task} {owner : Owner} {id : Nat} {slot : Slot}
    (h : (accept sockets task owner id).1 = .connection slot) :
    ∃ l, ownedLocked sockets owner id = some l ∧
      taken sockets (.accept task owner id) = some (l, slot) := by
  unfold accept at h
  cases howned : ownedLocked sockets owner id with
  | none => simp [howned] at h
  | some l =>
    simp only [howned] at h
    split at h
    · cases h
    · next hl =>
      cases hslot : (sockets l).acceptSlot with
      | none => simp [hslot] at h
      | some j =>
        simp only [hslot, Accept.connection.injEq] at h
        subst h
        refine ⟨l, rfl, ?_⟩
        simp only [taken, howned, hslot]
        simpa using hl

theorem accept_announced {sockets : Sockets} {l j : Slot} (hin : (sockets l).inUse = true)
    (hl : (sockets l).isListener = true) (hslot : (sockets l).acceptSlot = some j) (task : Task) :
    (accept sockets task (sockets l).owner l).1 = .connection j := by
  have howned : ownedLocked sockets (sockets l).owner l = some l := by
    simp [ownedLocked, hin]
  simp [accept, howned, hl, hslot]

/-- In every orderly run: no connection is returned twice; what `accept` returns is an open
connection made to that listener, completed while it was open and not returned before; and a
completed connection that is open and was not returned is what the next `accept` on its
listener returns. A call of `accept` that sleeps does so on an open listener, and if there is such a
connection, another task was woken from the queue: when it looks again it gets the connection. -/
theorem accept_exactly_once (h : system.Reachable Orderly b) :
    b.returned.Nodup ∧
    (∀ task owner id slot, (accept b.sockets task owner id).1 = .connection slot →
      ∃ l, ownedLocked b.sockets owner id = some l ∧ b.listener slot = some (b.born l) ∧
        (b.sockets slot).inUse ∧
        ((b.sockets slot).state = .established ∨ (b.sockets slot).state = .closeWait) ∧
        b.born slot ∈ b.completed ∧ b.born slot ∉ b.returned) ∧
    (∀ j l, (b.sockets j).inUse → b.born j ∈ b.completed → (b.sockets l).inUse →
      b.listener j = some (b.born l) → b.born j ∉ b.returned →
        ∀ task, (accept b.sockets task (b.sockets l).owner l).1 = .connection j) ∧
    ∀ l, (b.sockets l).waiters ≠ [] → (b.sockets l).inUse ∧ (b.sockets l).isListener ∧
      ∀ j, (b.sockets j).inUse → b.born j ∈ b.completed → b.listener j = some (b.born l) →
        b.born j ∉ b.returned → ∃ task ∈ b.woken l,
          (accept b.sockets task (b.sockets l).owner l).1 = .connection j := by
  have hsound : b.Sound := h.invariant (fun _ => Initial.sound)
    fun _ _ _ hs horderly hnext => hs.next horderly hnext
  have hattended : b.Attended := h.invariant (fun _ => Initial.attended)
    fun _ _ _ hs horderly hnext => hs.next horderly hnext
  refine ⟨hsound.nodup, fun task owner id slot haccept => ?_,
    fun j l hj hdone hl hmade hnot task => ?_, fun l hwaiters => ?_⟩
  · obtain ⟨l, howned, htaken⟩ := accept_taken haccept
    obtain ⟨hlin, hl, hslot, -⟩ := perform_taken htaken
    obtain ⟨hin, hmade, hdone, hnot⟩ := hsound.announced l slot hlin hl hslot
    exact ⟨l, howned, hmade, hin, hsound.open_ slot hin hdone, hdone, hnot⟩
  · obtain ⟨hlistens, hslot⟩ := hsound.waiting j l hj hdone hl hmade hnot
    exact accept_announced hl hlistens hslot task
  · obtain ⟨hl, hlistens⟩ := hattended.asleep l hwaiters
    refine ⟨hl, hlistens, fun j hj hdone hmade hnot => ?_⟩
    obtain ⟨-, hslot⟩ := hsound.waiting j l hj hdone hl hmade hnot
    have hwoken := (hattended.woken l j hl hlistens hslot).resolve_left hwaiters
    obtain ⟨task, htask⟩ := exists_mem_of_ne_nil _ hwoken
    exact ⟨task, htask, accept_announced hl hlistens hslot task⟩

def blank : Backlog where
  sockets := fun _ => {}
  woken := fun _ => []
  serial := TCP_MAX
  born := fun i => i
  listener := fun _ => none
  completed := []
  returned := []

theorem blank_initial : blank.Initial :=
  ⟨fun _ => rfl, fun _ => rfl, rfl, fun _ => rfl, fun _ => rfl, rfl, rfl⟩

def packet (srcPort ack flags : Byte) : Operation :=
  .segment Net.online 7 0
    [0, srcPort, 0, 80, 0, 0, 0, 0, 0, 0, 0, ack, 0x50, flags, 0, 0, 0, 0, 0, 0]

/-- A SYN from a port and the acknowledgement that completes the handshake. -/
def syn (srcPort : Byte) : Operation := packet srcPort 0 0x02

def ack (srcPort : Byte) : Operation := packet srcPort 1 0x10

/-- Two tasks sleep in `accept` when the connection comes; one of them is woken for it. -/
theorem accept_exactly_once_blocked : ∃ b, system.Reachable Orderly b ∧
    (b.sockets 0).waiters = [6] ∧ b.completed = [9] ∧ b.returned = [] ∧ b.woken 0 = [5] ∧
    ∃ task ∈ b.woken 0, (accept b.sockets task (b.sockets 0).owner 0).1 = .connection 1 := by
  have hrun : (runNext (restrict Orderly next) blank
      [.openListener 1 80, .accept 5 1 0, .accept 6 1 0, syn 1, ack 1]).map (fun b =>
        decide ((b.sockets 0).waiters = [6] ∧ b.completed = [9] ∧ b.returned = [] ∧
          b.woken 0 = [5] ∧ (b.sockets 1).inUse = true ∧ b.born 1 = 9 ∧
          b.listener 1 = some (b.born 0))) = some true := by decide
  obtain ⟨b, hb, hstate⟩ := map_eq_some_iff.mp hrun
  obtain ⟨hwaiters, hcompleted, hreturned, hwoken, hin, hborn, hmade⟩ := of_decide_eq_true hstate
  have hreach := restrict_reachable _ (.init blank_initial) hb
  obtain ⟨-, -, -, hblocked⟩ := accept_exactly_once hreach
  obtain ⟨-, -, hgets⟩ := hblocked 0 (by simp [hwaiters])
  exact ⟨b, hreach, hwaiters, hcompleted, hreturned, hwoken,
    hgets 1 hin (by simp [hborn, hcompleted]) hmade (by simp [hreturned])⟩

/-- Two handshakes are completed before the first `accept`: the first connection is lost, and
the second `accept` blocks. -/
theorem first_connection_lost :
    ∃ b, system.Reachable anyStep b ∧ (b.sockets 1).inUse = true ∧ b.born 1 ∈ b.completed ∧
      (b.sockets 0).inUse = true ∧ b.listener 1 = some (b.born 0) ∧ b.born 1 ∉ b.returned ∧
      (accept b.sockets 0 1 0).1 = .blocked := by
  have hrun : (runNext next blank
      [.openListener 1 80, syn 1, syn 2, ack 1, ack 2, .accept 0 1 0]).map (fun b =>
        (b.sockets 1).inUse && decide (b.born 1 ∈ b.completed) && (b.sockets 0).inUse &&
          decide (b.listener 1 = some (b.born 0)) && decide (b.born 1 ∉ b.returned) &&
          decide ((accept b.sockets 0 1 0).1 = .blocked)) = some true := by decide
  obtain ⟨b, hb, hfields⟩ := map_eq_some_iff.mp hrun
  simp only [Bool.and_eq_true, decide_eq_true_eq] at hfields
  obtain ⟨⟨⟨⟨⟨hin, hdone⟩, hlin⟩, hmade⟩, hnot⟩, hblocked⟩ := hfields
  exact ⟨b, runNext_reachable _ (.init blank_initial) hb, hin, hdone, hlin, hmade, hnot,
    hblocked⟩

end Backlog

end Innigkeit.Network.Tcp
